/-!
# Floating-point numbers in decimal

A finite number is a whole number times a power of two. A whole one is written with all its digits;
any other with the fewest digits that read back to the same number, and of those the nearest to it.
Exponents are never written.
-/
namespace NaturalTemplate.Decimal

/-- A finite number: its sign, and its size as `mantissa` times two to the power `exponent`. -/
structure Binary where
  negative : Bool
  mantissa : Nat
  exponent : Int
deriving DecidableEq, Inhabited

/-- The parts of a finite number. -/
def Binary.ofFloat? (x : Float) : Option Binary :=
  let bits : Nat := x.toBits.toNat
  let negative := bits / Nat.pow 2 63 = 1
  let scale : Nat := bits / Nat.pow 2 52 % Nat.pow 2 11
  let fraction : Nat := bits % Nat.pow 2 52
  if scale = 2047 then none
  else if scale = 0 then some ⟨negative, fraction, -1074⟩
  else some ⟨negative, fraction + Nat.pow 2 52, (scale : Int) - 1075⟩

namespace Binary

/-- The size of a number that is whole. -/
def whole? (b : Binary) : Option Nat :=
  if 0 ≤ b.exponent then some (b.mantissa * Nat.pow 2 b.exponent.toNat)
  else
    let unit := Nat.pow 2 (-b.exponent).toNat
    if b.mantissa % unit = 0 then some (b.mantissa / unit) else none

end Binary

/-- A fraction with the interval of fractions around it that read back to the same number. -/
structure Interval where
  low : Nat
  value : Nat
  high : Nat
  denominator : Nat
  /-- Whether the ends belong to the interval. -/
  closed : Bool
deriving DecidableEq, Inhabited

/-- The interval halfway to the neighbours of a number. Below a power of two the neighbour is half
as far away; the ends belong to it if the mantissa is even. -/
def Interval.ofBinary (b : Binary) : Interval :=
  let unit := Nat.pow 2 b.exponent.toNat
  let below := if b.mantissa = Nat.pow 2 52 ∧ -1074 < b.exponent then 1 else 2
  { low := (4 * b.mantissa - below) * unit
    value := 4 * b.mantissa * unit
    high := (4 * b.mantissa + 2) * unit
    denominator := 4 * Nat.pow 2 (-b.exponent).toNat
    closed := b.mantissa % 2 = 0 }

/-- Whole digits times ten to the power `exponent`. -/
structure Digits where
  digits : Nat
  exponent : Int
deriving DecidableEq, Inhabited

/-- The better of the two neighbours of the value among the multiples of ten to the power
`exponent`, if one of them lies in the interval. Of two equally near the upper one is taken. -/
def Interval.hit? (i : Interval) (exponent : Int) : Option Digits :=
  let up := Nat.pow 10 (-exponent).toNat
  let step := i.denominator * Nat.pow 10 exponent.toNat
  let lower := i.value * up / step
  let inside := fun n =>
    if i.closed then i.low * up ≤ n * step ∧ n * step ≤ i.high * up
    else i.low * up < n * step ∧ n * step < i.high * up
  match decide (inside lower), decide (inside (lower + 1)) with
  | true, false => some ⟨lower, exponent⟩
  | false, true => some ⟨lower + 1, exponent⟩
  | true, true =>
    if (2 * lower + 1) * step ≤ 2 * i.value * up then some ⟨lower + 1, exponent⟩
    else some ⟨lower, exponent⟩
  | false, false => none

/-- The number of zeros that follow the point in a fraction below one. -/
def leadingZeros (numerator denominator : Nat) : Nat :=
  if 0 < numerator ∧ numerator * 10 < denominator then
    leadingZeros (numerator * 10) denominator + 1
  else 0
termination_by denominator - numerator
decreasing_by omega

/-- The least power of ten above a positive fraction. -/
def magnitude (numerator denominator : Nat) : Int :=
  if denominator ≤ numerator then (Nat.toDigits 10 (numerator / denominator)).length
  else -(leadingZeros numerator denominator : Int)

/-- The first of some powers of ten, each a tenth of the one before, of which a multiple hits the
interval. -/
def Interval.firstHit (i : Interval) (exponent : Int) : (tries : Nat) → Digits
  | 0 => ⟨0, exponent⟩
  | tries + 1 => (i.hit? exponent).getD (i.firstHit (exponent - 1) tries)

/-- The digits of the shortest decimal that reads back. Seventeen digits are always enough. -/
def Binary.shortest (b : Binary) : Digits :=
  let i := Interval.ofBinary b
  i.firstHit (magnitude i.value i.denominator - 1) 17

/-- Moves zeros at the end of the digits into the exponent. -/
def stripZeros (digits : Nat) (exponent : Int) : Digits :=
  if 0 < digits ∧ digits % 10 = 0 then stripZeros (digits / 10) (exponent + 1)
  else ⟨digits, exponent⟩
termination_by digits
decreasing_by omega

/-- Writes digits with a point where they need one. -/
def Digits.toText (d : Digits) : String :=
  let d := stripZeros d.digits d.exponent
  let digits := Nat.toDigits 10 d.digits
  if 0 ≤ d.exponent then String.ofList (digits ++ List.replicate d.exponent.toNat '0')
  else
    let places := (-d.exponent).toNat
    let padded := List.replicate (places + 1 - digits.length) '0' ++ digits
    let cut := padded.length - places
    String.ofList (padded.take cut ++ '.' :: padded.drop cut)

/-- The text of a number. A whole one ends in a point and a zero. -/
def toText (x : Float) : String :=
  match Binary.ofFloat? x with
  | none => if x.isNaN then "NaN" else if x < 0 then "-inf" else "inf"
  | some b =>
    (if b.negative then "-" else "") ++
      match b.whole? with
      | some n => toString n ++ ".0"
      | none => b.shortest.toText

end NaturalTemplate.Decimal
