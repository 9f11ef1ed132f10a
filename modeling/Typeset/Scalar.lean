/-!
# Numbers for coordinates and times

Every pass is written once over a type of numbers with the operations below, so the same
definition runs on rounded binary numbers and can be read over the exact rationals. No law is
part of the class: rounded numbers satisfy few, and the passes ask for none.
-/

namespace Typeset

/-- Numbers as the passes use them: arithmetic, comparison, and rounding down to a whole number. -/
class Scalar (α : Type) extends Zero α, One α, NatCast α, Add α, Sub α, Mul α, Div α,
    LT α, LE α, BEq α where
  decLT : DecidableLT α
  decLE : DecidableLE α
  floor : α → α

namespace Scalar

variable {α : Type} [Scalar α]

instance : DecidableLT α := decLT

instance : DecidableLE α := decLE

/-- The larger of two numbers; a value that is not a number gives way to the other operand. -/
def larger (a b : α) : α :=
  if a ≤ b then b else if b ≤ a then a else if a == a then a else b

/-- The smaller of two numbers; a value that is not a number gives way to the other operand. -/
def smaller (a b : α) : α :=
  if a ≤ b then a else if b ≤ a then b else if a == a then a else b

/-- One half, the fraction of the slack that centres a line and the step that rounds to nearest. -/
def half : α := 1 / ((2 : Nat) : α)

/-- The largest coordinate a cursor takes. A line whose ink reaches it is not realigned. -/
def maxExtent : α := ((32767 : Nat) : α)

end Scalar

/-- The exact rationals. -/
instance : Scalar Rat where
  zero := 0
  one := 1
  decLT := inferInstance
  decLE := inferInstance
  floor x := (x.floor : Rat)

instance natCastFloat32 : NatCast Float32 := ⟨Float32.ofNat⟩

/-- Single precision, the numbers of the geometry. -/
instance : Scalar Float32 where
  zero := 0
  one := 1
  decLT := inferInstance
  decLE := inferInstance
  floor := Float32.floor

instance natCastFloat : NatCast Float := ⟨Float.ofNat⟩

/-- Double precision, the numbers of the clock. -/
instance : Scalar Float where
  zero := 0
  one := 1
  decLT := inferInstance
  decLE := inferInstance
  floor := Float.floor

end Typeset
