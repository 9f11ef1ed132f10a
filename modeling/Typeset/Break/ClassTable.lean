import Typeset.Break.Class

/-!
# Break classes of code points

The basic plane is described by ranges of which a later one overrides an earlier one, so broad
blocks come first; its Hangul syllables follow a rule of their own. The other planes follow a
short rule. A `ClassTable` is that default together with overrides, the latest first.
-/

namespace Typeset

/-- A class for the code points from `first` to `last`. -/
structure ClassRange where
  first : Nat
  last : Nat
  cls : BreakClass

def ClassRange.covers (r : ClassRange) (code : Nat) : Bool := r.first ≤ code && code ≤ r.last

/-- The ranges of the basic plane, Hangul syllables apart. -/
def planeRanges : List ClassRange := [
  -- alphabets and syllabaries below the general punctuation, with their marks and digits
  ⟨0x0021, 0x007E, .AL⟩, ⟨0x00A0, 0x1FFF, .AL⟩, ⟨0x0300, 0x036F, .CM⟩, ⟨0x034F, 0x034F, .GL⟩,
  ⟨0x035C, 0x0362, .GL⟩, ⟨0x037E, 0x037E, .IS⟩, ⟨0x0483, 0x0489, .CM⟩, ⟨0x0591, 0x05BD, .CM⟩,
  ⟨0x05BE, 0x05BE, .BA⟩, ⟨0x0610, 0x061A, .CM⟩, ⟨0x060C, 0x060D, .IS⟩, ⟨0x061B, 0x061B, .EX⟩,
  ⟨0x061F, 0x061F, .EX⟩, ⟨0x064B, 0x065F, .CM⟩, ⟨0x0660, 0x0669, .NU⟩, ⟨0x066A, 0x066A, .PO⟩,
  ⟨0x066B, 0x066C, .NU⟩, ⟨0x0670, 0x0670, .CM⟩, ⟨0x06D6, 0x06DC, .CM⟩, ⟨0x06DF, 0x06E4, .CM⟩,
  ⟨0x06E7, 0x06E8, .CM⟩, ⟨0x06EA, 0x06ED, .CM⟩, ⟨0x06F0, 0x06F9, .NU⟩, ⟨0x0900, 0x0903, .CM⟩,
  ⟨0x093A, 0x094F, .CM⟩, ⟨0x0951, 0x0957, .CM⟩, ⟨0x0962, 0x0963, .CM⟩, ⟨0x0964, 0x0965, .BA⟩,
  ⟨0x0966, 0x096F, .NU⟩, ⟨0x0E00, 0x0EFF, .SA⟩, ⟨0x0E50, 0x0E59, .NU⟩, ⟨0x0E5A, 0x0E5B, .BA⟩,
  ⟨0x1000, 0x109F, .SA⟩, ⟨0x1100, 0x115F, .JL⟩, ⟨0x1160, 0x11A7, .JV⟩, ⟨0x11A8, 0x11FF, .JT⟩,
  ⟨0x1680, 0x1680, .BA⟩, ⟨0x1780, 0x17FF, .SA⟩, ⟨0x1AB0, 0x1AFF, .CM⟩, ⟨0x1DC0, 0x1DFF, .CM⟩,
  -- controls, spaces and punctuation of the first half of Latin-1
  ⟨0x0000, 0x0008, .CM⟩, ⟨0x0009, 0x0009, .BA⟩, ⟨0x000A, 0x000A, .LF⟩, ⟨0x000B, 0x000C, .BK⟩,
  ⟨0x000D, 0x000D, .CR⟩, ⟨0x000E, 0x001F, .CM⟩, ⟨0x0020, 0x0020, .SP⟩, ⟨0x0021, 0x0021, .EX⟩,
  ⟨0x0022, 0x0022, .QU⟩, ⟨0x0024, 0x0024, .PR⟩, ⟨0x0025, 0x0025, .PO⟩, ⟨0x0027, 0x0027, .QU⟩,
  ⟨0x0028, 0x0028, .OP⟩, ⟨0x0029, 0x0029, .CP⟩, ⟨0x002B, 0x002B, .PR⟩, ⟨0x002C, 0x002C, .IS⟩,
  ⟨0x002D, 0x002D, .HY⟩, ⟨0x002E, 0x002E, .IS⟩, ⟨0x002F, 0x002F, .SY⟩, ⟨0x0030, 0x0039, .NU⟩,
  ⟨0x003A, 0x003B, .IS⟩, ⟨0x003F, 0x003F, .EX⟩, ⟨0x005B, 0x005B, .OP⟩, ⟨0x005C, 0x005C, .PR⟩,
  ⟨0x005D, 0x005D, .CP⟩, ⟨0x007B, 0x007B, .OP⟩, ⟨0x007C, 0x007C, .BA⟩, ⟨0x007D, 0x007D, .CL⟩,
  ⟨0x007F, 0x009F, .CM⟩, ⟨0x0085, 0x0085, .NL⟩,
  -- the second half of Latin-1, and spacing modifiers
  ⟨0x00A0, 0x00A0, .GL⟩, ⟨0x00A1, 0x00A1, .OP⟩, ⟨0x00A2, 0x00A2, .PO⟩, ⟨0x00A3, 0x00A5, .PR⟩,
  ⟨0x00A7, 0x00A8, .AI⟩, ⟨0x00AA, 0x00AA, .AI⟩, ⟨0x00AB, 0x00AB, .QU⟩, ⟨0x00AD, 0x00AD, .BA⟩,
  ⟨0x00B0, 0x00B0, .PO⟩, ⟨0x00B1, 0x00B1, .PR⟩, ⟨0x00B2, 0x00B3, .AI⟩, ⟨0x00B4, 0x00B4, .BB⟩,
  ⟨0x00B6, 0x00BA, .AI⟩, ⟨0x00BB, 0x00BB, .QU⟩, ⟨0x00BC, 0x00BE, .AI⟩, ⟨0x00BF, 0x00BF, .OP⟩,
  ⟨0x00D7, 0x00D7, .AI⟩, ⟨0x00F7, 0x00F7, .AI⟩, ⟨0x02C8, 0x02C8, .BB⟩, ⟨0x02CC, 0x02CC, .BB⟩,
  ⟨0x02DF, 0x02DF, .BB⟩,
  -- dashes, quotation marks, invisible format characters, currency signs
  ⟨0x2000, 0x2006, .BA⟩, ⟨0x2007, 0x2007, .GL⟩, ⟨0x2008, 0x200A, .BA⟩, ⟨0x200B, 0x200B, .ZW⟩,
  ⟨0x200C, 0x200F, .CM⟩, ⟨0x2010, 0x2010, .BA⟩, ⟨0x2011, 0x2011, .GL⟩, ⟨0x2012, 0x2013, .BA⟩,
  ⟨0x2014, 0x2014, .B2⟩, ⟨0x2015, 0x2016, .AI⟩, ⟨0x2017, 0x2017, .AL⟩, ⟨0x2018, 0x2019, .QU⟩,
  ⟨0x201A, 0x201A, .OP⟩, ⟨0x201B, 0x201D, .QU⟩, ⟨0x201E, 0x201E, .OP⟩, ⟨0x201F, 0x201F, .QU⟩,
  ⟨0x2020, 0x2021, .AI⟩, ⟨0x2022, 0x2023, .AL⟩, ⟨0x2024, 0x2026, .IN⟩, ⟨0x2027, 0x2027, .BA⟩,
  ⟨0x2028, 0x2029, .BK⟩, ⟨0x202A, 0x202E, .CM⟩, ⟨0x202F, 0x202F, .GL⟩, ⟨0x2030, 0x2037, .PO⟩,
  ⟨0x2038, 0x2038, .AL⟩, ⟨0x2039, 0x203A, .QU⟩, ⟨0x203B, 0x203B, .AI⟩, ⟨0x203C, 0x203D, .NS⟩,
  ⟨0x203E, 0x2043, .AL⟩, ⟨0x2044, 0x2044, .IS⟩, ⟨0x2045, 0x2045, .OP⟩, ⟨0x2046, 0x2046, .CL⟩,
  ⟨0x2047, 0x2049, .NS⟩, ⟨0x204A, 0x2055, .AL⟩, ⟨0x2056, 0x2056, .BA⟩, ⟨0x2057, 0x2057, .AL⟩,
  ⟨0x2058, 0x205B, .BA⟩, ⟨0x205C, 0x205C, .AL⟩, ⟨0x205D, 0x205F, .BA⟩, ⟨0x2060, 0x2060, .WJ⟩,
  ⟨0x2061, 0x2064, .AL⟩, ⟨0x2066, 0x206F, .CM⟩, ⟨0x2070, 0x209F, .AL⟩, ⟨0x20A0, 0x20CF, .PR⟩,
  ⟨0x20A7, 0x20A7, .PO⟩, ⟨0x20B6, 0x20B6, .PO⟩, ⟨0x20BB, 0x20BB, .PO⟩, ⟨0x20BE, 0x20BE, .PO⟩,
  ⟨0x20D0, 0x20FF, .CM⟩,
  -- symbols, from letterlike forms to dingbats, and radicals
  ⟨0x2100, 0x23FF, .AL⟩, ⟨0x2103, 0x2103, .PO⟩, ⟨0x2109, 0x2109, .PO⟩, ⟨0x2116, 0x2116, .PR⟩,
  ⟨0x2460, 0x24FF, .AI⟩, ⟨0x2500, 0x257F, .AI⟩, ⟨0x2580, 0x259F, .AL⟩, ⟨0x25A0, 0x25FF, .AI⟩,
  ⟨0x2600, 0x27BF, .AL⟩, ⟨0x2605, 0x2606, .AI⟩, ⟨0x2640, 0x2642, .AI⟩, ⟨0x2768, 0x2768, .OP⟩,
  ⟨0x2769, 0x2769, .CL⟩, ⟨0x276A, 0x276A, .OP⟩, ⟨0x276B, 0x276B, .CL⟩, ⟨0x27C0, 0x2DFF, .AL⟩,
  ⟨0x2E80, 0x2FFF, .ID⟩,
  -- ideographic space, brackets and iteration marks
  ⟨0x3000, 0x3000, .BA⟩, ⟨0x3001, 0x3002, .CL⟩, ⟨0x3003, 0x3004, .ID⟩, ⟨0x3005, 0x3005, .NS⟩,
  ⟨0x3006, 0x3007, .ID⟩, ⟨0x3008, 0x3008, .OP⟩, ⟨0x3009, 0x3009, .CL⟩, ⟨0x300A, 0x300A, .OP⟩,
  ⟨0x300B, 0x300B, .CL⟩, ⟨0x300C, 0x300C, .OP⟩, ⟨0x300D, 0x300D, .CL⟩, ⟨0x300E, 0x300E, .OP⟩,
  ⟨0x300F, 0x300F, .CL⟩, ⟨0x3010, 0x3010, .OP⟩, ⟨0x3011, 0x3011, .CL⟩, ⟨0x3012, 0x3013, .ID⟩,
  ⟨0x3014, 0x3014, .OP⟩, ⟨0x3015, 0x3015, .CL⟩, ⟨0x3016, 0x3016, .OP⟩, ⟨0x3017, 0x3017, .CL⟩,
  ⟨0x3018, 0x3018, .OP⟩, ⟨0x3019, 0x3019, .CL⟩, ⟨0x301A, 0x301A, .OP⟩, ⟨0x301B, 0x301B, .CL⟩,
  ⟨0x301C, 0x301C, .NS⟩, ⟨0x301D, 0x301D, .OP⟩, ⟨0x301E, 0x301F, .CL⟩, ⟨0x3020, 0x3029, .ID⟩,
  ⟨0x302A, 0x302F, .CM⟩, ⟨0x3030, 0x303A, .ID⟩, ⟨0x303B, 0x303B, .NS⟩, ⟨0x303C, 0x303F, .ID⟩,
  -- hiragana and katakana, whose small forms are conditional starters
  ⟨0x3040, 0x30FF, .ID⟩, ⟨0x3041, 0x3041, .CJ⟩, ⟨0x3043, 0x3043, .CJ⟩, ⟨0x3045, 0x3045, .CJ⟩,
  ⟨0x3047, 0x3047, .CJ⟩, ⟨0x3049, 0x3049, .CJ⟩, ⟨0x3063, 0x3063, .CJ⟩, ⟨0x3083, 0x3083, .CJ⟩,
  ⟨0x3085, 0x3085, .CJ⟩, ⟨0x3087, 0x3087, .CJ⟩, ⟨0x308E, 0x308E, .CJ⟩, ⟨0x3095, 0x3096, .CJ⟩,
  ⟨0x3099, 0x309A, .CM⟩, ⟨0x309B, 0x309E, .NS⟩, ⟨0x30A0, 0x30A0, .NS⟩, ⟨0x30A1, 0x30A1, .CJ⟩,
  ⟨0x30A3, 0x30A3, .CJ⟩, ⟨0x30A5, 0x30A5, .CJ⟩, ⟨0x30A7, 0x30A7, .CJ⟩, ⟨0x30A9, 0x30A9, .CJ⟩,
  ⟨0x30C3, 0x30C3, .CJ⟩, ⟨0x30E3, 0x30E3, .CJ⟩, ⟨0x30E5, 0x30E5, .CJ⟩, ⟨0x30E7, 0x30E7, .CJ⟩,
  ⟨0x30EE, 0x30EE, .CJ⟩, ⟨0x30F5, 0x30F6, .CJ⟩, ⟨0x30FB, 0x30FB, .NS⟩, ⟨0x30FC, 0x30FC, .CJ⟩,
  ⟨0x30FD, 0x30FE, .NS⟩,
  -- phonetic letters and strokes of the ideographic scripts
  ⟨0x3100, 0x31EF, .ID⟩, ⟨0x31F0, 0x31FF, .CJ⟩,
  -- ideographs and the syllables set like them
  ⟨0x3200, 0x4DBF, .ID⟩, ⟨0x4DC0, 0x4DFF, .AL⟩, ⟨0x4E00, 0x9FFF, .ID⟩, ⟨0xA000, 0xA4CF, .ID⟩,
  ⟨0xA015, 0xA015, .NS⟩, ⟨0xA4D0, 0xA95F, .AL⟩, ⟨0xA960, 0xA97F, .JL⟩, ⟨0xA980, 0xABFF, .AL⟩,
  -- late jamo, and the surrogates
  ⟨0xD7B0, 0xD7C6, .JV⟩, ⟨0xD7CB, 0xD7FB, .JT⟩, ⟨0xD800, 0xDFFF, .SG⟩,
  -- compatibility ideographs, vertical and small forms
  ⟨0xF900, 0xFAFF, .ID⟩, ⟨0xFB00, 0xFDFF, .AL⟩, ⟨0xFB1E, 0xFB1E, .CM⟩, ⟨0xFD3E, 0xFD3E, .CL⟩,
  ⟨0xFD3F, 0xFD3F, .OP⟩, ⟨0xFE00, 0xFE0F, .CM⟩, ⟨0xFE10, 0xFE10, .IS⟩, ⟨0xFE11, 0xFE12, .CL⟩,
  ⟨0xFE13, 0xFE14, .IS⟩, ⟨0xFE15, 0xFE16, .EX⟩, ⟨0xFE17, 0xFE17, .OP⟩, ⟨0xFE18, 0xFE18, .CL⟩,
  ⟨0xFE19, 0xFE19, .IN⟩, ⟨0xFE20, 0xFE2F, .CM⟩, ⟨0xFE30, 0xFE34, .ID⟩, ⟨0xFE45, 0xFE46, .ID⟩,
  ⟨0xFE47, 0xFE47, .OP⟩, ⟨0xFE48, 0xFE48, .CL⟩, ⟨0xFE49, 0xFE4F, .ID⟩, ⟨0xFE50, 0xFE50, .CL⟩,
  ⟨0xFE51, 0xFE51, .ID⟩, ⟨0xFE52, 0xFE52, .CL⟩, ⟨0xFE54, 0xFE55, .NS⟩, ⟨0xFE56, 0xFE57, .EX⟩,
  ⟨0xFE58, 0xFE58, .ID⟩, ⟨0xFE59, 0xFE59, .OP⟩, ⟨0xFE5A, 0xFE5A, .CL⟩, ⟨0xFE5B, 0xFE5B, .OP⟩,
  ⟨0xFE5C, 0xFE5C, .CL⟩, ⟨0xFE5D, 0xFE5D, .OP⟩, ⟨0xFE5E, 0xFE5E, .CL⟩, ⟨0xFE5F, 0xFE68, .ID⟩,
  ⟨0xFE69, 0xFE69, .PR⟩, ⟨0xFE6A, 0xFE6A, .PO⟩, ⟨0xFE6B, 0xFE6B, .ID⟩, ⟨0xFE70, 0xFEFE, .AL⟩,
  ⟨0xFEFF, 0xFEFF, .WJ⟩,
  -- forms of full and half width
  ⟨0xFF01, 0xFF01, .EX⟩, ⟨0xFF02, 0xFF03, .ID⟩, ⟨0xFF04, 0xFF04, .PR⟩, ⟨0xFF05, 0xFF05, .PO⟩,
  ⟨0xFF06, 0xFF07, .ID⟩, ⟨0xFF08, 0xFF08, .OP⟩, ⟨0xFF09, 0xFF09, .CL⟩, ⟨0xFF0A, 0xFF0B, .ID⟩,
  ⟨0xFF0C, 0xFF0C, .CL⟩, ⟨0xFF0D, 0xFF0D, .ID⟩, ⟨0xFF0E, 0xFF0E, .CL⟩, ⟨0xFF0F, 0xFF19, .ID⟩,
  ⟨0xFF1A, 0xFF1B, .NS⟩, ⟨0xFF1C, 0xFF1E, .ID⟩, ⟨0xFF1F, 0xFF1F, .EX⟩, ⟨0xFF20, 0xFF3A, .ID⟩,
  ⟨0xFF3B, 0xFF3B, .OP⟩, ⟨0xFF3C, 0xFF3C, .ID⟩, ⟨0xFF3D, 0xFF3D, .CL⟩, ⟨0xFF3E, 0xFF5A, .ID⟩,
  ⟨0xFF5B, 0xFF5B, .OP⟩, ⟨0xFF5C, 0xFF5C, .ID⟩, ⟨0xFF5D, 0xFF5D, .CL⟩, ⟨0xFF5E, 0xFF5E, .ID⟩,
  ⟨0xFF5F, 0xFF5F, .OP⟩, ⟨0xFF60, 0xFF61, .CL⟩, ⟨0xFF62, 0xFF62, .OP⟩, ⟨0xFF63, 0xFF64, .CL⟩,
  ⟨0xFF65, 0xFF65, .NS⟩, ⟨0xFF66, 0xFF66, .ID⟩, ⟨0xFF67, 0xFF70, .CJ⟩, ⟨0xFF71, 0xFF9D, .ID⟩,
  ⟨0xFF9E, 0xFF9F, .NS⟩, ⟨0xFFA0, 0xFFDC, .ID⟩, ⟨0xFFE0, 0xFFE0, .PO⟩, ⟨0xFFE1, 0xFFE1, .PR⟩,
  ⟨0xFFE2, 0xFFE4, .ID⟩, ⟨0xFFE5, 0xFFE6, .PR⟩, ⟨0xFFE8, 0xFFEE, .AL⟩, ⟨0xFFF9, 0xFFFB, .CM⟩,
  ⟨0xFFFC, 0xFFFC, .CB⟩, ⟨0xFFFD, 0xFFFD, .AI⟩]

/-- The class that the last range covering a code point gives it. -/
def rangeClass (rs : List ClassRange) (code : Nat) : BreakClass :=
  rs.foldl (fun cls r => if r.covers code then r.cls else cls) .XX

/-- Of the Hangul syllables every twenty-eighth has no trailing consonant. -/
def hangulClass (code : Nat) : BreakClass := if (code - 0xAC00) % 28 = 0 then .H2 else .H3

/-- Classes beyond the basic plane: emoji and ideographs, format characters, and all else. -/
def supplementaryClass (code : Nat) : BreakClass :=
  if 0x1F000 ≤ code ∧ code ≤ 0x1FAFF then .ID
  else if 0x20000 ≤ code ∧ code ≤ 0x2FFFD then .ID
  else if 0x30000 ≤ code ∧ code ≤ 0x3FFFD then .ID
  else if 0xE0001 ≤ code ∧ code ≤ 0xE007F then .CM
  else if 0xE0100 ≤ code ∧ code ≤ 0xE01EF then .CM
  else .AL

/-- The class of a code point that nothing overrides. -/
def defaultClass (code : Nat) : BreakClass :=
  if 0x10000 ≤ code then supplementaryClass code
  else if 0xAC00 ≤ code ∧ code ≤ 0xD7A3 then hangulClass code
  else rangeClass planeRanges code

/-- The default classes with overrides for single characters, latest first. -/
structure ClassTable where
  overrides : List (Nat × BreakClass)

namespace ClassTable

/-- The table without overrides. -/
def default : ClassTable := ⟨[]⟩

/-- The class of a code point, which need not be a character. -/
def get (t : ClassTable) (code : Nat) : BreakClass :=
  (t.overrides.lookup code).getD (defaultClass code)

/-- Overrides the class of one character. -/
def tailor (t : ClassTable) (c : Char) (cls : BreakClass) : ClassTable :=
  ⟨(c.toNat, cls) :: t.overrides⟩

/-- Overrides the class of every character of a text. -/
def tailorAll (t : ClassTable) (text : String) (cls : BreakClass) : ClassTable :=
  text.toList.foldl (fun t c => t.tailor c cls) t

/-- Overrides by the name of a class; an unknown name stands for the unknown class. -/
def tailorNamed (t : ClassTable) (text name : String) : ClassTable :=
  t.tailorAll text ((BreakClass.ofName? name).getD .XX)

theorem get_default (code : Nat) : default.get code = defaultClass code := rfl

theorem get_tailor (t : ClassTable) (c : Char) (cls : BreakClass) (code : Nat) :
    (t.tailor c cls).get code = if code = c.toNat then cls else t.get code := by
  by_cases h : code = c.toNat
  · simp [get, tailor, h]
  · have hb : (code == c.toNat) = false := by simpa using h
    simp [get, tailor, List.lookup_cons, hb, h]

end ClassTable

end Typeset
