import LatticeSeries.Ieee.Number

/-!
# Decimal text of floating-point numbers

Two ways to write a number in positional notation: with a set number of places,
rounded from the exact binary value, and with the fewest digits that still read
back as the same number. Both work on the exact value in natural-number
arithmetic. A decimal is read by rounding its exact value once.
-/
namespace LatticeSeries.Ieee

-- Powers of numbers are those of core.
attribute [local instance (2000)] instPowNat

/-- The digits of `n` with the last `places` of them behind the point. -/
def positional (n places : Nat) : String :=
  let digits := Nat.toDigits 10 n
  let padded := List.replicate (places + 1 - digits.length) '0' ++ digits
  let whole := padded.take (padded.length - places)
  let part := padded.drop (padded.length - places)
  String.ofList (if places = 0 then whole else whole ++ '.' :: part)

/-- The reals that round to one number, as fractions over one denominator. The
ends belong to the interval exactly if it is closed. -/
structure Interval where
  lower : Nat
  value : Nat
  upper : Nat
  denominator : Nat
  closed : Bool

namespace Interval

/-- The interval of `mantissa · 2^exponent`, which reaches half way to either
neighbour. Below a power of two the neighbour is half as far away. -/
def around (f : Format) (mantissa : Nat) (exponent : Int) : Interval :=
  let narrow := mantissa = 2 ^ f.fractionBits ∧ f.leastExponent < exponent
  let factor := 2 ^ (exponent - 2).toNat
  { lower := (4 * mantissa - if narrow then 1 else 2) * factor
    value := 4 * mantissa * factor
    upper := (4 * mantissa + 2) * factor
    denominator := 2 ^ (2 - exponent).toNat
    closed := mantissa % 2 = 0 }

/-- Whether the fraction `numerator / (denominator · scale)` lies in the interval. -/
def contains (i : Interval) (scale numerator : Nat) : Bool :=
  let lower := i.lower * scale
  let upper := i.upper * scale
  if i.closed then lower ≤ numerator && numerator ≤ upper
  else lower < numerator && numerator < upper

/-- The multiple of `10^place` inside the interval that is nearest to the value,
the greater one of two equally near; none if the interval holds no multiple. -/
def multiple? (i : Interval) (place : Int) : Option Nat :=
  let scale := 10 ^ (-place).toNat
  let unit := i.denominator * 10 ^ place.toNat
  let value := i.value * scale
  let below := value / unit
  match i.contains scale (below * unit), i.contains scale ((below + 1) * unit) with
  | true, true => some (if 2 * value < (2 * below + 1) * unit then below else below + 1)
  | true, false => some below
  | false, true => some (below + 1)
  | false, false => none

/-- The first of `count` descending places with a multiple inside the interval. -/
def coarsest? (i : Interval) : (count : Nat) → (place : Int) → Option (Nat × Int)
  | 0, _ => none
  | count + 1, place =>
    match i.multiple? place with
    | some n => some (n, place)
    | none => i.coarsest? count (place - 1)

end Interval

/-- Every binary fraction is a decimal fraction. -/
def exactDecimal (mantissa : Nat) (exponent : Int) : Nat × Int :=
  (mantissa * 2 ^ exponent.toNat * 5 ^ (-exponent).toNat, min exponent 0)

/-- The decimal `digits · 10^place` with the fewest digits that reads back as
`mantissa · 2^exponent`, for a mantissa other than zero. -/
def shortestDecimal (f : Format) (mantissa : Nat) (exponent : Int) : Nat × Int :=
  let top := (mantissa.log2 + exponent + 1) * 30103 / 100000 + 1
  ((Interval.around f mantissa exponent).coarsest? 20 top).getD (exactDecimal mantissa exponent)

namespace Number

variable {format : Format}

/-- A sign, then the text of the magnitude. -/
def signed (negative : Bool) (text : String) : String :=
  if negative then "-" ++ text else text

/-- The exact value rounded to `places` decimal places, an exact half to the even digit. -/
def toFixed (x : Number format) (places : Nat) : String :=
  match x.datum with
  | .nan => "NaN"
  | .infinite negative => signed negative "inf"
  | .finite negative mantissa exponent =>
    let numerator := mantissa * 10 ^ places * 2 ^ exponent.toNat
    signed negative (positional (divHalfEven numerator (2 ^ (-exponent).toNat)) places)

/-- The fewest digits that read back as the same number, never with an exponent. -/
def toShortest (x : Number format) : String :=
  match x.datum with
  | .nan => "NaN"
  | .infinite negative => signed negative "inf"
  | .finite negative 0 _ => signed negative "0"
  | .finite negative mantissa exponent =>
    let (digits, place) := shortestDecimal format mantissa exponent
    signed negative (positional (digits * 10 ^ place.toNat) (-place).toNat)

/-- The number nearest to `±digits · 10^place`. A place out of the format's
reach is decided without computing the power of ten; otherwise the quotient is
taken with spare bits, the last of which records whether it is inexact. -/
def ofDecimal (negative : Bool) (digits : Nat) (place : Int) : Number format :=
  let reach : Int := 2 ^ format.exponentBits
  ofDatum <|
    if digits = 0 ∨ place + digits.log2 + 1 < -reach then .finite negative 0 0
    else if reach < place then .infinite negative
    else if 0 ≤ place then .finite negative (digits * 10 ^ place.toNat) 0
    else
      let denominator := 10 ^ (-place).toNat
      let shift := format.fractionBits + 4 + denominator.log2 - digits.log2
      let numerator := digits <<< shift
      let inexact := decide (numerator % denominator ≠ 0)
      .finite negative (2 * (numerator / denominator) + inexact.toNat) (-(shift + 1 : Nat))

end Number

end LatticeSeries.Ieee
