/-!
# `RecordQuery.Number.Binary64`: floating-point numbers as 64-bit patterns

A number is kept as its bit pattern, so that two numbers are the same exactly when their
bits are. The module holds the parts of the pattern, the total order (negative NaNs, negative
infinity, the negative numbers, `-0`, `+0`, the positive numbers, infinity, positive NaNs),
the rounding of an integer to the nearest pattern, and the two operations of a running mean.
-/

set_option autoImplicit false

namespace RecordQuery

/-- A floating-point number, by its bit pattern. -/
structure Binary64 where
  /-- Sign, eleven bits of exponent, fifty-two bits of fraction. -/
  bits : UInt64
deriving DecidableEq, Repr, Inhabited

namespace Binary64

/-- The weight of the sign bit, `2 ^ 63`. -/
def signUnit : Nat := 0x8000000000000000

/-- The weight of the lowest bit of the exponent field, `2 ^ 52`. -/
def fieldUnit : Nat := 0x10000000000000

/-- Whether the sign bit is set. -/
def isNegative (x : Binary64) : Bool := signUnit ≤ x.bits.toNat

/-- The pattern without its sign bit, as a number. -/
def magnitude (x : Binary64) : Nat := x.bits.toNat % signUnit

/-- The magnitude of infinity: the largest exponent field with an empty fraction. -/
def infinityMagnitude : Nat := 2047 * fieldUnit

/-- Whether the pattern stands for no number. -/
def isNaN (x : Binary64) : Bool := infinityMagnitude < x.magnitude

/-- Whether the pattern is one of the two infinities. -/
def isInfinite (x : Binary64) : Bool := x.magnitude == infinityMagnitude

/-- The pattern with the given sign and magnitude. -/
def ofParts (negative : Bool) (magnitude : Nat) : Binary64 :=
  ⟨UInt64.ofNat (magnitude % signUnit + if negative then signUnit else 0)⟩

/-- The place of the pattern in the total order: magnitudes upwards on the positive side,
downwards from `-1` on the negative side. -/
def orderKey (x : Binary64) : Int :=
  if x.isNegative then -(x.magnitude : Int) - 1 else x.magnitude

/-- The total order on patterns. -/
def compare (a b : Binary64) : Ordering := Ord.compare a.orderKey b.orderKey

instance : Ord Binary64 := ⟨compare⟩

/-- `n / 2 ^ shift` rounded to the nearest integer, a half going to the even neighbour. -/
def roundShift (n shift : Nat) : Nat :=
  let unit := Nat.pow 2 shift
  let quotient := n / unit
  let rest := 2 * (n % unit)
  if unit < rest then quotient + 1
  else if rest == unit && quotient % 2 == 1 then quotient + 1
  else quotient

/-- The magnitude nearest to a natural number, a half going to the even neighbour. A
significand that rounds up to `2 ^ 53` carries into the exponent field by itself. -/
def magnitudeOfNat (n : Nat) : Nat :=
  if n = 0 then 0
  else
    let exponent := Nat.log2 n
    let significand :=
      if exponent ≤ 52 then n * Nat.pow 2 (52 - exponent) else roundShift n (exponent - 52)
    min ((exponent + 1022) * fieldUnit + significand) infinityMagnitude

/-- The number nearest to an integer, a half going to the even neighbour. -/
def ofInt (n : Int) : Binary64 := ofParts (n < 0) (magnitudeOfNat n.natAbs)

/-- Positive zero. -/
def zero : Binary64 := ⟨0⟩

/-- The pattern that an operation on numbers gives when it has no numeric result. -/
def invalidResult : Binary64 := ⟨0xfff8000000000000⟩

/-- The pattern of a computed result. -/
def ofResult (r : Float) : Binary64 :=
  if r.isNaN then invalidResult else ⟨r.toBits⟩

/-- The rounded sum. A NaN operand is passed on, of two the right one. -/
def add (a b : Binary64) : Binary64 :=
  if b.isNaN then b
  else if a.isNaN then a
  else ofResult (Float.ofBits a.bits + Float.ofBits b.bits)

/-- The rounded quotient. A NaN operand is passed on, of two the left one. -/
def div (a b : Binary64) : Binary64 :=
  if a.isNaN then a
  else if b.isNaN then b
  else ofResult (Float.ofBits a.bits / Float.ofBits b.bits)

end Binary64

end RecordQuery
