import Std.Data.HashMap
import Typeset.Break.ClassTable

/-!
# A table of classes in two stores

The classes of the basic plane stand in an array with a slot for each code point. It is filled
range by range, which puts the later of two overlapping ranges on top, and the Hangul syllables
come last. Overrides of other characters go into a map, which is asked before the rule for the
other planes. A `Tailoring` is one change of a table.
-/

namespace Typeset

/-- A class for every code point of the basic plane. -/
abbrev Plane := Vector BreakClass 0x10000

/-- The plane with the classes of some code points written over. -/
def Plane.paint (cls : Nat → BreakClass) (codes : List Nat) (plane : Plane) : Plane :=
  codes.foldl (fun p code => p.setIfInBounds code (cls code)) plane

/-- The code points of a range. -/
def ClassRange.codes (r : ClassRange) : List Nat := List.range' r.first (r.last + 1 - r.first)

theorem ClassRange.mem_codes {r : ClassRange} {code : Nat} :
    code ∈ r.codes ↔ r.covers code = true := by
  simp only [codes, covers, List.mem_range'_1, Bool.and_eq_true, decide_eq_true_eq]
  omega

/-- Every range is one, and lies in the plane: none is cut short where the array ends. -/
theorem planeRanges_within : ∀ r ∈ planeRanges, r.first ≤ r.last ∧ r.last < 0x10000 := by
  decide +kernel

/-- The plane with a range written over. -/
def Plane.fill (plane : Plane) (r : ClassRange) : Plane := paint (fun _ => r.cls) r.codes plane

/-- The code points of the Hangul syllables. -/
def hangulCodes : List Nat := List.range' 0xAC00 (0xD7A3 + 1 - 0xAC00)

/-- The plane before anything overrides it. -/
def Plane.default : Plane :=
  paint hangulClass hangulCodes (planeRanges.foldl fill (Vector.replicate 0x10000 .XX))

/-- The classes of the basic plane, and what overrides the rule for the others. -/
structure TableStore where
  plane : Plane
  beyond : Std.HashMap Nat BreakClass

namespace TableStore

/-- The table without overrides. -/
def default : TableStore := ⟨.default, ∅⟩

/-- The class of a code point, which need not be a character. -/
def get (t : TableStore) (code : Nat) : BreakClass :=
  match t.plane[code]? with
  | some cls => cls
  | none => (t.beyond[code]?).getD (supplementaryClass code)

/-- Overrides the class of one character. -/
def tailor (t : TableStore) (c : Char) (cls : BreakClass) : TableStore :=
  if h : c.toNat < 0x10000 then { t with plane := t.plane.set c.toNat cls h }
  else { t with beyond := t.beyond.insert c.toNat cls }

/-- Overrides the class of every character of a text. -/
def tailorAll (t : TableStore) (text : String) (cls : BreakClass) : TableStore :=
  text.toList.foldl (fun t c => t.tailor c cls) t

/-- Overrides by the name of a class; an unknown name stands for the unknown class. -/
def tailorNamed (t : TableStore) (text name : String) : TableStore :=
  t.tailorAll text ((BreakClass.ofName? name).getD .XX)

theorem get_of_lt (t : TableStore) {code : Nat} (h : code < 0x10000) :
    t.get code = t.plane[code] := by
  simp [get, h]

theorem get_of_ge (t : TableStore) {code : Nat} (h : 0x10000 ≤ code) :
    t.get code = (t.beyond[code]?).getD (supplementaryClass code) := by
  simp [get, Vector.getElem?_eq_none h]

theorem get_tailor (t : TableStore) (c : Char) (cls : BreakClass) (code : Nat) :
    (t.tailor c cls).get code = if code = c.toNat then cls else t.get code := by
  by_cases hc : c.toNat < 0x10000
  · by_cases h : code < 0x10000
    · simp only [tailor, hc, get_of_lt _ h, ↓reduceDIte, Vector.getElem_set, eq_comm]
    · -- a slot of the plane is written, and beyond it nothing changes
      have hne : code ≠ c.toNat := fun he => h (he ▸ hc)
      rw [get_of_ge _ (Nat.le_of_not_lt h), get_of_ge _ (Nat.le_of_not_lt h), if_neg hne, tailor,
        dif_pos hc]
  · by_cases h : code < 0x10000
    · have hne : code ≠ c.toNat := fun he => hc (he ▸ h)
      rw [get_of_lt _ h, get_of_lt _ h, if_neg hne]
      simp only [tailor, hc, ↓reduceDIte]
    · rw [get_of_ge _ (Nat.le_of_not_lt h), get_of_ge _ (Nat.le_of_not_lt h), tailor, dif_neg hc]
      by_cases he : code = c.toNat
      · simp [he]
      · simp [Std.HashMap.getElem?_insert, he, Ne.symm he]

end TableStore

/-- A change of the classes of some characters. -/
inductive Tailoring where
  | one (c : Char) (cls : BreakClass)
  | all (text : String) (cls : BreakClass)
  /-- The class is given by its name. -/
  | named (text name : String)

/-- The characters whose classes are changed. -/
def Tailoring.chars : Tailoring → List Char
  | .one c _ => [c]
  | .all text _ => text.toList
  | .named text _ => text.toList

/-- A table after a change. -/
def TableStore.apply (t : TableStore) : Tailoring → TableStore
  | .one c cls => t.tailor c cls
  | .all text cls => t.tailorAll text cls
  | .named text name => t.tailorNamed text name

/-- A table after some changes, one after the other. -/
def TableStore.applyAll (t : TableStore) (ops : List Tailoring) : TableStore := ops.foldl apply t

/-- A table after a change. -/
def ClassTable.apply (t : ClassTable) : Tailoring → ClassTable
  | .one c cls => t.tailor c cls
  | .all text cls => t.tailorAll text cls
  | .named text name => t.tailorNamed text name

/-- A table after some changes, one after the other. -/
def ClassTable.applyAll (t : ClassTable) (ops : List Tailoring) : ClassTable := ops.foldl apply t

end Typeset
