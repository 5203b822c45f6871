/-!
# Binary floating-point formats

A format says how many bits of a word hold the fraction and how many the
exponent. A word of the format unpacks to a datum: not a number, an infinity, or
an exact signed multiple of a power of two. Rounding goes the other way: it
takes an exact datum to the nearest word of the format, an exact half to the
even neighbour. Arithmetic is exact on data and rounds once.
-/
namespace LatticeSeries.Ieee

-- Powers of numbers are those of core.
attribute [local instance (2000)] instPowNat

structure Format where
  fractionBits : Nat
  exponentBits : Nat
deriving DecidableEq, Repr

/-- What a word stands for; a finite datum is the exact value `±mantissa · 2^exponent`. -/
inductive Datum where
  | nan
  | infinite (negative : Bool)
  | finite (negative : Bool) (mantissa : Nat) (exponent : Int)
deriving DecidableEq, Repr

/-- The quotient rounded to the nearest natural number, an exact half to the even one. -/
def divHalfEven (numerator denominator : Nat) : Nat :=
  let quotient := numerator / denominator
  let twice := 2 * (numerator % denominator)
  if twice < denominator ∨ (twice = denominator ∧ quotient % 2 = 0) then quotient
  else quotient + 1

namespace Format

def single : Format := ⟨23, 8⟩

def double : Format := ⟨52, 11⟩

def width (f : Format) : Nat := 1 + f.exponentBits + f.fractionBits

@[simp] theorem width_single : single.width = 32 := rfl

@[simp] theorem width_double : double.width = 64 := rfl

/-- The exponent of the least positive number. -/
def leastExponent (f : Format) : Int :=
  2 - 2 ^ (f.exponentBits - 1) - f.fractionBits

/-- The word of the positive infinity; a greater magnitude is not a number. -/
def infinity (f : Format) : Nat := (2 ^ f.exponentBits - 1) * 2 ^ f.fractionBits

/-- The weight of the sign bit. -/
def signBit (f : Format) : Nat := 2 ^ (f.exponentBits + f.fractionBits)

def unpack (f : Format) (word : Nat) : Datum :=
  let negative := decide (f.signBit ≤ word)
  let magnitude := word % f.signBit
  let fraction := magnitude % 2 ^ f.fractionBits
  let exponent := magnitude / 2 ^ f.fractionBits
  if f.infinity < magnitude then .nan
  else if magnitude = f.infinity then .infinite negative
  else if exponent = 0 then .finite negative fraction f.leastExponent
  else .finite negative (2 ^ f.fractionBits + fraction) (f.leastExponent + (exponent - 1 : Nat))

/-- The magnitude nearest to `mantissa · 2^exponent`. A carry out of the
fraction moves into the exponent field by itself, and past the last finite
magnitude lies infinity. -/
def roundMagnitude (f : Format) (mantissa : Nat) (exponent : Int) : Nat :=
  if mantissa = 0 then 0
  else
    let place := max f.leastExponent (exponent + mantissa.log2 - f.fractionBits)
    let kept :=
      if place ≤ exponent then mantissa <<< (exponent - place).toNat
      else divHalfEven mantissa (2 ^ (place - exponent).toNat)
    min f.infinity ((place - f.leastExponent).toNat <<< f.fractionBits + kept)

/-- The word nearest to an exact datum. -/
def round (f : Format) : Datum → Nat
  | .nan => f.infinity + 2 ^ (f.fractionBits - 1)
  | .infinite negative => negative.toNat * f.signBit + f.infinity
  | .finite negative mantissa exponent =>
    negative.toNat * f.signBit + f.roundMagnitude mantissa exponent

end Format

namespace Datum

/-- `±mantissa` as an integer, counted in units of `2^exponent` for a smaller exponent. -/
def scaled (negative : Bool) (mantissa : Nat) (shift : Nat) : Int :=
  let units : Int := mantissa <<< shift
  if negative then -units else units

/-- The exact sum. A zero sum is negative only if both operands are. -/
def add : Datum → Datum → Datum
  | .nan, _ | _, .nan => .nan
  | .infinite a, .infinite b => if a = b then .infinite a else .nan
  | .infinite a, .finite .. => .infinite a
  | .finite .., .infinite b => .infinite b
  | .finite a m i, .finite b n j =>
    let least := min i j
    let sum := scaled a m (i - least).toNat + scaled b n (j - least).toNat
    .finite (if sum = 0 then a && b else decide (sum < 0)) sum.natAbs least

/-- The exact product. Zero times infinity is not a number. -/
def mul : Datum → Datum → Datum
  | .nan, _ | _, .nan => .nan
  | .infinite a, .infinite b => .infinite (a ^^ b)
  | .infinite a, .finite b n _ => if n = 0 then .nan else .infinite (a ^^ b)
  | .finite a m _, .infinite b => if m = 0 then .nan else .infinite (a ^^ b)
  | .finite a m i, .finite b n j => .finite (a ^^ b) (m * n) (i + j)

end Datum

end LatticeSeries.Ieee
