import Typeset.Glyph

/-!
# Filling lines greedily

One walk over the glyphs keeps the last place at which the line may break. When the ink of a glyph
passes the budget, that break is taken: the cursor is moved back by where the next line starts, and
the walk goes on with the budget of the other lines. Breaks never taken are removed.

Annotations take no room. The advance of a hanging glyph counts only once another glyph follows,
and a replaced glyph is never held against the budget.
-/

namespace Typeset

variable {α τ : Type}

/-- A place to break at: its glyph, the cursor from which the next line starts, and whether the
break replaces the glyph. -/
structure Candidate (α : Type) where
  index : Nat
  resume : α
  replaces : Bool

/-- The line being filled: its budget, the cursor, advances that hang over the edge, whether the
line holds a glyph, the break it may end at, and the breaks taken so far, latest first. -/
structure Fill (α : Type) where
  budget : α
  cursor : α
  hanging : α
  placed : Bool
  candidate : Option (Candidate α)
  taken : List Nat

namespace Fill

variable [Scalar α]

def start (first : α) : Fill α := ⟨first, 0, 0, false, none, []⟩

/-- Counts the hanging advances, since another glyph follows. -/
def settle (s : Fill α) : Fill α := { s with cursor := s.cursor + s.hanging, hanging := 0 }

/-- Whether nothing but a replaced glyph stands between the last candidate and the cursor. -/
def afterSpace (s : Fill α) : Bool :=
  match s.candidate with
  | some c => c.replaces && c.resume == s.cursor
  | none => false

/-- Takes the candidate if the ink of `g` passes the budget. -/
def breakFor (rest : α) (s : Fill α) (g : Glyph α τ) : Fill α :=
  if s.budget < s.cursor + g.width then
    match s.candidate with
    | some c =>
      { s with
        cursor := s.cursor - c.resume, budget := rest, candidate := none
        taken := c.index :: s.taken }
    | none => s
  else s

/-- Sets a glyph at the cursor. -/
def put (s : Fill α) (g : Glyph α τ) : Fill α :=
  { s with cursor := s.cursor + g.advance, placed := true }

def step (rest : α) (s : Fill α) (gi : Glyph α τ × Nat) : Fill α :=
  if gi.1.annotates then s
  else match gi.1.split with
    | .hang => { s with hanging := s.hanging + gi.1.advance }
    | .replace =>
      let t := s.settle.put gi.1
      { t with candidate := some ⟨gi.2, t.cursor, true⟩ }
    | .before =>
      let t := s.settle
      let u :=
        if !t.placed || t.afterSpace then t
        else { t with candidate := some ⟨gi.2, t.cursor, false⟩ }
      (u.breakFor rest gi.1).put gi.1
    | .none => (s.settle.breakFor rest gi.1).put gi.1

end Fill

/-- The indices of the breaks taken, latest first. -/
def takenBreaks [Scalar α] (first rest : α) (gs : List (Glyph α τ)) : List Nat :=
  (gs.zipIdx.foldl (Fill.step rest) (.start first)).taken

/-- A place at which the breaker may end a line. -/
def Glyph.isOpportunity (g : Glyph α τ) : Bool :=
  !g.annotates && (g.split == .before || g.split == .replace)

/-- Keeps the breaks needed to hold the first line to `first` and the others to `rest`. -/
def breakGreedy [Scalar α] (first rest : α) (gs : List (Glyph α τ)) : List (Glyph α τ) :=
  let taken := takenBreaks first rest gs
  gs.zipIdx.map fun gi =>
    if gi.1.isOpportunity && !taken.contains gi.2 then { gi.1 with split := .none } else gi.1

end Typeset
