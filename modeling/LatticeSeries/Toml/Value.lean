import LatticeSeries.Ieee.Decimal

/-!
# TOML values

What a TOML document means, without the notation in which it was written: six
kinds of atoms, arrays, and tables with distinct keys in the order of their
first appearance.
-/
namespace LatticeSeries.Toml

/-- A day of the calendar. -/
structure Date where
  year : Nat
  month : Nat
  day : Nat
deriving DecidableEq

/-- A time of day; a leap second has the number 60. -/
structure Time where
  hour : Nat
  minute : Nat
  second : Nat
  nanosecond : Nat
deriving DecidableEq

/-- A date, a time, or both, and with both perhaps an offset in minutes. -/
structure DateTime where
  date? : Option Date
  time? : Option Time
  offset? : Option Int
deriving DecidableEq

inductive Value where
  | text (value : String)
  | integer (value : Int)
  | float (value : Double)
  | boolean (value : Bool)
  | dateTime (value : DateTime)
  | array (elements : List Value)
  | table (entries : List (String × Value))

/-- The table that a whole document denotes. -/
abbrev Document := List (String × Value)

/-- A way to read the text of a document, with no result for a text that is not TOML. -/
abbrev Parse := String → Option Document

end LatticeSeries.Toml
