/-!
# Decimal numerals

The value of a time step is given as a decimal numeral of 64 bits: digits, with
leading zeros and one plus sign allowed in front. A numeral is read from the
left, and the first character at which it goes wrong decides what is wrong.
-/
namespace LatticeSeries

/-- What is wrong with a numeral. -/
inductive NumeralFault where
  | empty
  | invalidDigit
  | tooLarge
deriving DecidableEq, Repr

def NumeralFault.message : NumeralFault → String
  | .empty => "cannot parse integer from empty string"
  | .invalidDigit => "invalid digit found in string"
  | .tooLarge => "number too large to fit in target type"

namespace Numeral

/-- The value of the digits behind those that spell `n`. -/
def extend (n : Nat) : List Char → Except NumeralFault Nat
  | [] => .ok n
  | c :: cs =>
    if c.isDigit then
      let next := 10 * n + (c.toNat - '0'.toNat)
      if next < UInt64.size then extend next cs else .error .tooLarge
    else .error .invalidDigit

def parseChars : List Char → Except NumeralFault Nat
  | [] => .error .empty
  | ['+'] => .error .invalidDigit
  | '+' :: cs => extend 0 cs
  | cs => extend 0 cs

def parse (text : String) : Except NumeralFault UInt64 :=
  (parseChars text.toList).map UInt64.ofNat

end Numeral

end LatticeSeries
