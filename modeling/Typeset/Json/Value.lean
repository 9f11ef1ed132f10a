import Typeset.Json.Number

/-!
# Values of configuration documents

Styles and link areas may be given as JSON. A string that names half of a surrogate pair has no
text. A record may be given by the names of its fields or as an array in their order, and a name
may be given as text or as the only member of an object, with the value null.
-/

namespace Typeset

/-- A JSON value. Members of an object keep their order and may repeat. -/
inductive Json where
  | null
  | bool (b : Bool)
  | num (n : Json.Number)
  | str (text : Option String)
  | arr (items : List Json)
  | obj (members : List (Option String × Json))
deriving Inhabited

namespace Json

/-- Numbers that a document can give. -/
class Readable (α : Type) where
  ofNumber? : Number → Option α

instance : Readable Float := ⟨Number.toFloat?⟩

instance : Readable Float32 := ⟨Number.toFloat32?⟩

/-- The value as a number. -/
def number? {α : Type} [Readable α] : Json → Option α
  | num n => Readable.ofNumber? n
  | _ => none

/-- The value as a truth value. -/
def bool? : Json → Option Bool
  | bool b => some b
  | _ => none

/-- The value as an integer without sign, up to `limit`. -/
def natUpTo? (limit : Nat) : Json → Option Nat
  | num n => if n.integral && !n.negative && n.digits ≤ limit then some n.digits else none
  | _ => none

/-- The value as a name. -/
def name? : Json → Option String
  | str text => text
  | obj [(name, null)] => name
  | _ => none

/-- The fields of a record, whose names are given in order. The names of all members must be text,
and an array may be shorter than the record but not longer. -/
def fields? (names : List String) : Json → Option (List (String × Json))
  | obj members => members.mapM fun m => m.1.map fun name => (name, m.2)
  | arr items => if items.length ≤ names.length then some (names.zip items) else none
  | _ => none

end Json

end Typeset
