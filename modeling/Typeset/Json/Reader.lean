import Typeset.Json.Lexeme

/-!
# Reading JSON

The reader keeps the containers that are still open, innermost first, and what may come next. A
document is one value with nothing after it.
-/

namespace Typeset.Json

/-- A container part way through, its contents latest first; an object knows the name whose value
was read last or comes next. -/
inductive Frame where
  | arr (items : List Json)
  | obj (members : List (Option String × Json)) (name : Option String)

/-- What may come next. -/
inductive Awaited where
  | value
  | itemOrClose
  | name (members : List (Option String × Json)) (mayClose : Bool)
  | colon (members : List (Option String × Json)) (name : Option String)
  | separator
  | nothing (v : Json)

/-- The reader after some of the lexemes. -/
structure Reader where
  frames : List Frame
  awaited : Awaited

namespace Reader

def start : Reader := ⟨[], .value⟩

/-- Puts a complete value into the innermost container. -/
def give (frames : List Frame) (v : Json) : Reader :=
  match frames with
  | [] => ⟨[], .nothing v⟩
  | .arr items :: outer => ⟨.arr (v :: items) :: outer, .separator⟩
  | .obj members name :: outer => ⟨.obj ((name, v) :: members) name :: outer, .separator⟩

/-- Reads the start of a value. -/
def open? (frames : List Frame) : Lexeme → Option Reader
  | .value v => some (give frames v)
  | .mark '{' => some ⟨frames, .name [] true⟩
  | .mark '[' => some ⟨.arr [] :: frames, .itemOrClose⟩
  | .mark _ => none

/-- Reads what follows a complete value in the innermost container. -/
def separate? : List Frame → Char → Option Reader
  | .arr items :: outer, ',' => some ⟨.arr items :: outer, .value⟩
  | .arr items :: outer, ']' => some (give outer (arr items.reverse))
  | .obj members _ :: outer, ',' => some ⟨outer, .name members false⟩
  | .obj members _ :: outer, '}' => some (give outer (obj members.reverse))
  | _, _ => none

def step (r : Reader) (l : Lexeme) : Option Reader :=
  match r.awaited, l with
  | .value, l => open? r.frames l
  | .itemOrClose, .mark ']' => separate? r.frames ']'
  | .itemOrClose, l => open? r.frames l
  | .name members _, .value (str name) => some ⟨r.frames, .colon members name⟩
  | .name _ true, .mark '}' => some (give r.frames (obj []))
  | .colon members name, .mark ':' => some ⟨.obj members name :: r.frames, .value⟩
  | .separator, .mark c => separate? r.frames c
  | _, _ => none

/-- The value read, if nothing is missing. -/
def finish (r : Reader) : Option Json :=
  match r.awaited with
  | .nothing v => some v
  | _ => none

end Reader

/-- The value of a document. -/
def ofText? (text : String) : Option Json :=
  (lexemes? text).bind fun ls => (ls.foldlM Reader.step .start).bind Reader.finish

end Typeset.Json
