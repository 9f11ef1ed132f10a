import Typeset.Break.ClassTable
import Typeset.Break.Pair
import Typeset.Glyph
import Typeset.Sweep

/-!
# Where lines may break

A classifier marks the places at which a line may break. All three pass over annotations, which
stay with their base, and none lets a run of base glyphs come apart. The pair classifier first
collects its marks, because a space is marked only when the glyph after it is known, and then
writes them over the earlier splits; hanging glyphs stay hanging unless they are marked.
-/

namespace Typeset

variable {α τ : Type}

/-- At a glyph of a base, whether the glyph before it belongs to the base too. -/
abbrev InBase := Bool

/-- Breaks at spaces, which it replaces, and before inline objects. -/
def westernStep (inBase : InBase) (g : Glyph α τ) : InBase × Glyph α τ :=
  if g.annotates then (false, g)
  else
    let base := g.ruby == .base
    if inBase && base then (base, { g with split := .none })
    else if g.isObject then (base, { g with split := .before })
    else if g.isSpace then (base, { g with split := .replace })
    else (base, g)

def markWestern (gs : List (Glyph α τ)) : List (Glyph α τ) := (sweep westernStep false gs).2

/-- Breaks between any two glyphs, and replaces spaces. -/
def anywhereStep (inBase : InBase) (g : Glyph α τ) : InBase × Glyph α τ :=
  if g.annotates then (false, g)
  else
    let base := g.ruby == .base
    if inBase && base then (base, { g with split := .none })
    else if g.isSpace then (base, { g with split := .replace })
    else (base, { g with split := .before })

def markAnywhere (gs : List (Glyph α τ)) : List (Glyph α τ) := (sweep anywhereStep false gs).2

/-- The state of the pair classifier: the class before the next place, the last of the spaces
since then, whether the glyph before belongs to a base, and the marks made, latest first. -/
structure PairScan where
  before : Option BreakClass
  space : Option Nat
  inBase : InBase
  marks : List (Nat × Split)

namespace PairScan

def start : PairScan := ⟨none, none, false, []⟩

/-- The mark at the place before glyph `i` of class `cls`: a space there is replaced. -/
def mark (s : PairScan) (i : Nat) (cls : BreakClass) : List (Nat × Split) :=
  match s.before with
  | none => []
  | some before =>
    match pairAction before cls, s.space with
    | .prohibited, _ => []
    | _, some j => [(j, .replace)]
    | .direct, none => [(i, .before)]
    | .indirect, none => []

/-- Moves past glyph `i`, which counts as one of class `cls`. -/
def pass (s : PairScan) (i : Nat) (cls : BreakClass) (base : InBase) : PairScan :=
  ⟨some cls, none, base, s.mark i cls ++ s.marks⟩

/-- A mark joins the glyph before it unless spaces or the start of the text keep it apart; then it
counts as a letter. Inside a base nothing is marked. -/
def step (classOf : Glyph α τ → BreakClass) (s : PairScan) (gi : Glyph α τ × Nat) : PairScan :=
  if gi.1.annotates then { s with inBase := false }
  else
    let base := gi.1.ruby == .base
    let cls := classOf gi.1
    if base && s.inBase then
      { s with before := if cls = .SP ∨ cls = .CM then s.before else some cls, space := none }
    else if cls = .SP then { s with space := some gi.2, inBase := base }
    else if cls = .CM then
      if s.before.isSome && s.space.isNone then { s with inBase := base } else s.pass gi.2 .AL base
    else s.pass gi.2 cls base

end PairScan

/-- The class of a glyph under a table and a profile. -/
def glyphClass (table : ClassTable) (profile : Profile) (noIdeographs : Bool) (g : Glyph α τ) :
    BreakClass :=
  if g.isObject then .CB else profile.resolve noIdeographs (table.get g.code)

/-- The marks of the pair rules, latest first. -/
def pairMarks (classOf : Glyph α τ → BreakClass) (gs : List (Glyph α τ)) : List (Nat × Split) :=
  (gs.zipIdx.foldl (PairScan.step classOf) .start).marks

/-- Writes a mark, or its absence, over the split of a glyph. -/
def Glyph.withMark (g : Glyph α τ) (mark : Option Split) : Glyph α τ :=
  if g.annotates then g
  else match mark with
    | some split => { g with split }
    | none => if g.split = .hang then g else { g with split := .none }

/-- Breaks where the pair rules allow. -/
def markPairs (classOf : Glyph α τ → BreakClass) (gs : List (Glyph α τ)) : List (Glyph α τ) :=
  let marks := pairMarks classOf gs
  gs.zipIdx.map fun gi => gi.1.withMark (marks.lookup gi.2)

/-- How the places for breaks are found. -/
inductive Classifier where
  | western
  | anywhere
  | pairs (profile : Profile) (noIdeographs : Bool)
deriving DecidableEq, Repr

namespace Classifier

/-- The pair rules without tailoring. -/
def default : Classifier := .pairs .western false

/-- Marks the places at which lines may break. -/
def mark (table : ClassTable) : Classifier → List (Glyph α τ) → List (Glyph α τ)
  | .western, gs => markWestern gs
  | .anywhere, gs => markAnywhere gs
  | .pairs profile noIdeographs, gs => markPairs (glyphClass table profile noIdeographs) gs

end Classifier

/-- Removes every break. -/
def clearSplits (gs : List (Glyph α τ)) : List (Glyph α τ) :=
  gs.map fun g => { g with split := .none }

/-- Gives the glyphs the splits of others, of which there must be as many. -/
def copySplits? (source gs : List (Glyph α τ)) : Option (List (Glyph α τ)) :=
  if source.length = gs.length then
    some ((source.zip gs).map fun p => { p.2 with split := p.1.split })
  else none

end Typeset
