import RecordQuery.Number.Binary64

/-!
# `RecordQuery.Number.Shortest`: the shortest decimal text of a number

A finite number other than zero is `m * 2 ^ q`. The reals that round to it form an interval
around it. On each decimal grid, coarsest first, the two grid points beside the number are
tried; the first grid with a point inside the interval gives the digits, and of two points
the nearer one, or the upper one when both are equally near. Seventeen digits always suffice.
The text is positional, never with an exponent.
-/

set_option autoImplicit false

namespace RecordQuery

namespace Binary64

/-- The integer significand `m` of a finite number `m * 2 ^ q`. -/
def significand (x : Binary64) : Nat :=
  let field := x.magnitude / fieldUnit
  let fraction := x.magnitude % fieldUnit
  if field = 0 then fraction else fieldUnit + fraction

/-- The exponent `q` of a finite number `m * 2 ^ q`. -/
def exponent (x : Binary64) : Int :=
  (max (x.magnitude / fieldUnit) 1 : Nat) - 1075

/-- Whether the gap below the number is half the gap above it. -/
def narrowBelow (x : Binary64) : Bool :=
  x.magnitude % fieldUnit == 0 && 1 < x.magnitude / fieldUnit

/-- A decimal `digits * 10 ^ scale`. -/
structure Decimal where
  /-- The digits as one number. -/
  digits : Nat
  /-- The power of ten. -/
  scale : Int
deriving DecidableEq, Repr

/-- The interval of reals that round to a number, over one denominator. -/
structure RoundingInterval where
  /-- The common denominator. -/
  unit : Nat
  /-- The lower end. -/
  low : Nat
  /-- The number itself. -/
  value : Nat
  /-- The upper end. -/
  high : Nat
  /-- Whether the ends themselves round to the number. -/
  closed : Bool

/-- The interval of the magnitude of a finite number. In quarters of the last place the
number is `4 m`, the upper end `4 m + 2` and the lower end `4 m - 2`, or `4 m - 1` where the
gap below is half as wide. -/
def roundingInterval (x : Binary64) : RoundingInterval :=
  let m := x.significand
  let q := x.exponent - 2
  let scale := if 0 ≤ q then Nat.pow 2 q.toNat else 1
  { unit := if 0 ≤ q then 1 else Nat.pow 2 (-q).toNat
    low := (4 * m - if x.narrowBelow then 1 else 2) * scale
    value := 4 * m * scale
    high := (4 * m + 2) * scale
    closed := m % 2 == 0 }

/-- The number of decimal digits, zero for zero. -/
def digitCount (n : Nat) : Nat := if n = 0 then 0 else (Nat.toDigits 10 n).length

/-- The power `p` with `10 ^ (p - 1) ≤ value / unit < 10 ^ p`. -/
def decimalOrder (value unit : Nat) : Int :=
  if unit ≤ value then digitCount (value / unit)
  else 1 - (digitCount ((unit - 1) / value) : Int)

/-- The point of the grid `10 ^ scale` that lies inside the interval and is nearest to its
number, if one of the two points beside the number does; of two equally near points the one
above. -/
def gridPoint? (i : RoundingInterval) (scale : Int) : Option Decimal :=
  let step := if 0 ≤ scale then i.unit * Nat.pow 10 scale.toNat else i.unit
  let factor := if 0 ≤ scale then 1 else Nat.pow 10 (-scale).toNat
  let below := i.value * factor / step
  let above := below + 1
  let inside (n : Nat) : Bool :=
    let point := n * step
    if i.closed then i.low * factor ≤ point && point ≤ i.high * factor
    else i.low * factor < point && point < i.high * factor
  let nearerBelow := 2 * (i.value * factor - below * step) < step
  match inside below && 0 < below, inside above with
  | true, true => some ⟨if nearerBelow then below else above, scale⟩
  | true, false => some ⟨below, scale⟩
  | false, true => some ⟨above, scale⟩
  | false, false => none

/-- The first hit on the grids with `count`, `count + 1`, … digits. -/
def searchGrids (i : RoundingInterval) (order : Int) (count : Nat) : Nat → Decimal
  | 0 => ⟨i.value / i.unit, 0⟩
  | tries + 1 =>
      match gridPoint? i (order - count) with
      | some d => d
      | none => searchGrids i order (count + 1) tries

/-- A decimal without the zeros at the end of its digits. -/
def Decimal.stripZeros (d : Decimal) : Nat → Decimal
  | 0 => d
  | tries + 1 =>
      if d.digits % 10 == 0 && 0 < d.digits then
        Decimal.stripZeros ⟨d.digits / 10, d.scale + 1⟩ tries
      else d

/-- The shortest decimal inside the interval of a finite magnitude other than zero. -/
def shortest (x : Binary64) : Decimal :=
  let i := x.roundingInterval
  (searchGrids i (decimalOrder i.value i.unit) 1 17).stripZeros 20

/-- The positional text of a decimal. -/
def Decimal.text (d : Decimal) : String :=
  let digits := Nat.toDigits 10 d.digits
  if 0 ≤ d.scale then String.ofList (digits ++ List.replicate d.scale.toNat '0')
  else
    let places := (-d.scale).toNat
    if places < digits.length then
      let whole := digits.length - places
      String.ofList (digits.take whole ++ '.' :: digits.drop whole)
    else
      String.ofList ('0' :: '.' :: (List.replicate (places - digits.length) '0' ++ digits))

/-- The text of a number: the shortest digits that read back, positional. -/
def text (x : Binary64) : String :=
  if x.isNaN then "NaN"
  else
    let sign := if x.isNegative then "-" else ""
    if x.isInfinite then sign ++ "inf"
    else if x.magnitude == 0 then sign ++ "0"
    else sign ++ x.shortest.text

end Binary64

end RecordQuery
