import LatticeSeries.Bytes
import LatticeSeries.Ieee.Format

/-!
# Floating-point numbers as words

A number is kept as the word that stores it, so a value that is only read and
handed on keeps its bits, those of a NaN included. Two numbers are the same
value when neither is a NaN and their words agree or both are zeros; this
relation is not equality of words and is not reflexive.
-/
namespace LatticeSeries

-- Powers of numbers are those of core.
attribute [local instance (2000)] instPowNat

open Ieee (Format Datum)

/-- A word of the given format. -/
structure Ieee.Number (format : Format) where
  bits : BitVec format.width
deriving DecidableEq

/-- A 32-bit floating-point number. -/
abbrev Single := Ieee.Number .single

/-- A 64-bit floating-point number. -/
abbrev Double := Ieee.Number .double

namespace Ieee.Number

variable {format target : Format}

def ofNatBits (word : Nat) : Number format := ⟨BitVec.ofNat _ word⟩

/-- The positive zero. -/
def zero : Number format := ofNatBits 0

def datum (x : Number format) : Datum := format.unpack x.bits.toNat

/-- The number nearest to an exact datum. -/
def ofDatum (d : Datum) : Number format := ofNatBits (format.round d)

/-- The natural number rounded to the format. -/
def ofNat (n : Nat) : Number format := ofDatum (.finite false n 0)

def add (x y : Number format) : Number format := ofDatum (x.datum.add y.datum)

def mul (x y : Number format) : Number format := ofDatum (x.datum.mul y.datum)

/-- The same value in another format, rounded if it does not fit. -/
def convert (x : Number format) : Number target := ofDatum x.datum

/-- The word as big-endian bytes, eight bits to a byte. -/
def toBytes (x : Number format) : Bytes := BigEndian.encode (format.width / 8) x.bits.toNat

def ofBytes (bytes : Bytes) : Number format := ofNatBits (BigEndian.decode bytes)

/-- The word without its sign bit. -/
def magnitude (x : Number format) : Nat := x.bits.toNat % format.signBit

def isNaN (x : Number format) : Bool := decide (format.infinity < x.magnitude)

/-- Equality of values: a NaN equals nothing, and the two zeros are equal. -/
def sameValue (x y : Number format) : Bool :=
  !x.isNaN && !y.isNaN && (x.bits == y.bits || (x.magnitude == 0 && y.magnitude == 0))

instance : Add (Number format) := ⟨add⟩

instance : Mul (Number format) := ⟨mul⟩

@[simp] theorem length_toBytes (x : Number format) :
    x.toBytes.length = format.width / 8 := by
  simp [toBytes]

/-- Whole bytes hold every bit of the word. -/
theorem ofBytes_toBytes (h : 8 * (format.width / 8) = format.width) (x : Number format) :
    ofBytes x.toBytes = x := by
  have hpow : 256 ^ (format.width / 8) = 2 ^ format.width := by
    rw [show 256 = 2 ^ 8 from rfl, ← Nat.pow_mul, h]
  rw [ofBytes, toBytes, BigEndian.decode_encode, hpow, Nat.mod_eq_of_lt x.bits.isLt]
  simp [ofNatBits]

theorem toBytes_ofBytes (h : 8 * (format.width / 8) = format.width) {bytes : Bytes}
    (hb : bytes.length = format.width / 8) : (ofBytes bytes : Number format).toBytes = bytes := by
  have hpow : 256 ^ (format.width / 8) = 2 ^ format.width := by
    rw [show 256 = 2 ^ 8 from rfl, ← Nat.pow_mul, h]
  have hlt := BigEndian.decode_lt bytes
  rw [hb, hpow] at hlt
  rw [toBytes, ofBytes, ofNatBits, BitVec.toNat_ofNat, Nat.mod_eq_of_lt hlt, ← hb,
    BigEndian.encode_decode]

@[simp] theorem ofBytes_toBytes_single (x : Single) : ofBytes x.toBytes = x :=
  ofBytes_toBytes rfl x

@[simp] theorem ofBytes_toBytes_double (x : Double) : ofBytes x.toBytes = x :=
  ofBytes_toBytes rfl x

theorem sameValue_self (x : Number format) : x.sameValue x = !x.isNaN := by
  simp [sameValue]

end Ieee.Number

end LatticeSeries
