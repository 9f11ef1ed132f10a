import Typeset.Json.Reader
import Typeset.Link
import Typeset.Style.Basic

/-!
# Styles and link areas from documents

Each field is read from the member of its name, so the order of the members does not matter.
Members of other names are passed over. A known name may occur only once, and its value must be of
the kind of the field. An array gives the fields in their order.
-/

namespace Typeset

/-- The members of a document. -/
abbrev Members := List (String × Json)

namespace Members

/-- Whether no known name occurs twice. -/
def distinct (known : List String) (ms : Members) : Bool :=
  decide ((ms.map Prod.fst).filter known.contains).Nodup

/-- The field of a name, or `absent` if no member has it. -/
def field {β : Type} (ms : Members) (name : String) (kind : Json → Option β) (absent : Option β) :
    Option β :=
  match ms.lookup name with
  | some v => kind v
  | none => absent

end Members

namespace Style

variable {α τ : Type} [Scalar α] [Scalar τ] [Json.Readable α] [Json.Readable τ]

/-- The names of the fields of a style, in order. -/
def fieldNames : List String :=
  ["first_width", "rest_width", "start_x", "start_y", "first_indent", "rest_indent", "align_width",
    "text_align", "justify", "line_spacing", "line_leading", "ruby_line_leading", "ruby_offset",
    "alt_ruby_offset", "language", "layout", "rtl", "slow_cps"]

/-- Reads a style; fields without a member keep their default. -/
def ofMembers? (ms : Members) : Option (Style α τ) :=
  if ms.distinct fieldNames then do
    let length (name : String) (absent : α) : Option α := ms.field name Json.number? (some absent)
    let flag (name : String) : Option Bool := ms.field name Json.bool? (some false)
    let firstWidth ← length "first_width" Scalar.maxExtent
    let restWidth ← length "rest_width" Scalar.maxExtent
    let left ← length "start_x" 0
    let top ← length "start_y" 0
    let firstIndent ← length "first_indent" 0
    let restIndent ← length "rest_indent" 0
    let alignWidth ← length "align_width" 0
    let fraction ← length "text_align" 0
    let justify ← flag "justify"
    let below ← length "line_spacing" 0
    let above ← length "line_leading" 0
    let aboveRuby ← length "ruby_line_leading" 0
    let rubyAbove ← length "ruby_offset" 0
    let rubyBelow ← length "alt_ruby_offset" 0
    let language ← ms.field "language" (fun v => v.name?.bind Language.ofName?) (some .unicode)
    let mode ← ms.field "layout" (fun v => v.name?.bind BreakMode.ofName?) (some .greedy)
    let rtl ← flag "rtl"
    let rate ← ms.field "slow_cps" Json.number? (some 0)
    return { firstWidth, restWidth, left, top, firstIndent, restIndent, alignWidth
             alignment := ⟨fraction, justify⟩, spacing := ⟨below, above, aboveRuby⟩
             rubyOffsets := ⟨rubyAbove, rubyBelow⟩, language, mode, rtl, rate }
  else none

/-- Reads a style from a value. -/
def ofJson? (v : Json) : Option (Style α τ) := (v.fields? fieldNames).bind ofMembers?

/-- Reads a style from a document. -/
def ofText? (text : String) : Option (Style α τ) := (Json.ofText? text).bind ofJson?

end Style

namespace LinkArea

variable {α τ : Type} [Json.Readable α] [Json.Readable τ]

/-- The names of the fields of an area, in order. -/
def fieldNames : List String := ["id", "x", "y", "width", "height", "time"]

/-- Reads an area, of which every field must be given. -/
def ofMembers? (ms : Members) : Option (LinkArea α τ) :=
  if ms.distinct fieldNames then do
    let id ← ms.field "id" (Json.natUpTo? maxLink) none
    let x ← ms.field "x" Json.number? none
    let y ← ms.field "y" Json.number? none
    let width ← ms.field "width" Json.number? none
    let height ← ms.field "height" Json.number? none
    let time ← ms.field "time" Json.number? none
    return { id, x, y, width, height, time }
  else none

/-- Reads an area from a document. -/
def ofText? (text : String) : Option (LinkArea α τ) :=
  (Json.ofText? text).bind fun v => (v.fields? fieldNames).bind ofMembers?

end LinkArea

end Typeset
