/-!
# Numbers of documents

A number keeps its leading digits as far as 64 bits hold them, with the power of ten that stands
for the point, the exponent and the digits left out. It is read by one multiplication or division
of the kept digits by that power, so the value may differ from the nearest one in its last place.
-/

namespace Typeset.Json

/-- A decimal number: a sign, the digits kept, and the power of ten they are multiplied by. -/
structure Number where
  negative : Bool
  digits : Nat
  exponent : Int
  /-- Whether it is written without fraction and exponent and kept whole. -/
  integral : Bool
deriving DecidableEq, Repr

/-- The value of decimal digits. -/
def digitsValue (cs : List Char) : Nat := cs.foldl (fun n c => 10 * n + (c.toNat - '0'.toNat)) 0

namespace Number

/-- The first number that 64 bits do not hold. -/
def wordLimit : Nat := 0x10000000000000000

/-- Appends digits to `n` as long as 64 bits hold the result; gives the digits left out too. -/
def appendDigits (n : Nat) : List Char → Nat × List Char
  | [] => (n, [])
  | c :: cs =>
    let next := 10 * n + (c.toNat - '0'.toNat)
    if next < wordLimit then appendDigits next cs else (n, c :: cs)

theorem appendDigits_lt {n : Nat} (h : n < wordLimit) (cs : List Char) :
    (appendDigits n cs).1 < wordLimit := by
  induction cs generalizing n with
  | nil => exact h
  | cons c cs ih =>
    simp only [appendDigits]
    split
    · exact ih ‹_›
    · exact h

/-- A fraction at the front of `cs`, which is empty if there is no point, and what follows it. -/
def fraction? : List Char → Option (List Char × List Char)
  | '.' :: cs =>
    if (cs.takeWhile Char.isDigit).isEmpty then none
    else some (cs.takeWhile Char.isDigit, cs.dropWhile Char.isDigit)
  | cs => some ([], cs)

/-- The digits of an exponent, which must be all of `cs`. -/
def exponentDigits? (cs : List Char) : Option Int :=
  if cs.isEmpty || !cs.all Char.isDigit then none else some (digitsValue cs)

/-- The exponent that ends a number, 0 if there is none. -/
def exponent? : List Char → Option Int
  | [] => some 0
  | c :: cs =>
    if c = 'e' ∨ c = 'E' then
      match cs with
      | '-' :: ds => (exponentDigits? ds).map fun n => -n
      | '+' :: ds => exponentDigits? ds
      | ds => exponentDigits? ds
    else none

/-- A number without sign. Its whole part has no leading zero. Digits left out of the whole part
raise the power of ten, and digits kept of the fraction lower it. -/
def unsigned? (negative : Bool) (cs : List Char) : Option Number := do
  let whole := cs.takeWhile Char.isDigit
  let rest := cs.dropWhile Char.isDigit
  if whole.isEmpty || (whole.head? == some '0' && 1 < whole.length) then none
  else
    let (fraction, tail) ← fraction? rest
    let exponent ← exponent? tail
    let kept := appendDigits 0 whole
    let all := appendDigits kept.1 fraction
    return { negative, digits := all.1
             exponent := exponent + (kept.2.length : Nat) - (fraction.length - all.2.length : Nat)
             integral := rest.isEmpty && kept.2.isEmpty }

/-- The number that is all of `cs`. -/
def ofChars? : List Char → Option Number
  | '-' :: cs => unsigned? true cs
  | cs => unsigned? false cs

/-- The largest exponent of a power of ten in double precision. -/
def maxPower : Nat := 308

/-- The power of ten in double precision, for exponents up to `maxPower`. -/
def powerOfTen (n : Nat) : Float := Float.ofScientific 1 false n

/-- The absolute value in double precision, unless it is out of range. A power too small for
double precision is divided out in two steps. -/
def magnitude? (n : Number) : Option Float :=
  let x := (UInt64.ofNat n.digits).toFloat
  let e := n.exponent.natAbs
  if n.digits = 0 then some 0
  else if 0 ≤ n.exponent then
    if maxPower < e || (x * powerOfTen e).isInf then none else some (x * powerOfTen e)
  else if e ≤ maxPower then some (x / powerOfTen e)
  else if e ≤ 2 * maxPower then some (x / powerOfTen maxPower / powerOfTen (e - maxPower))
  else some 0

/-- The number in double precision, unless it is out of range. -/
def toFloat? (n : Number) : Option Float :=
  n.magnitude?.map fun x => if n.negative then -x else x

/-- Whether the number is an integer of 64 bits. Minus zero is none. -/
def isWord (n : Number) : Bool :=
  n.integral && if n.negative then 0 < n.digits && n.digits ≤ 0x8000000000000000 else true

/-- The number in single precision. Integers of 64 bits are rounded once, others to double
precision first; what single precision cannot hold becomes infinite. -/
def toFloat32? (n : Number) : Option Float32 :=
  if n.isWord then
    let x := (UInt64.ofNat n.digits).toFloat32
    some (if n.negative then -x else x)
  else n.toFloat?.map Float.toFloat32

end Number

end Typeset.Json
