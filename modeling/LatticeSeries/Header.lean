import LatticeSeries.Error
import LatticeSeries.Ieee.Number

/-!
# The main header

A file opens with sixty bytes: two magic numbers, the format version, the
lattice spacing, the origin, the number of sites in a time step, and the number
of declared fields with the length of their header. The magic numbers are
judged before the version, and the version before anything else is read.
-/
namespace LatticeSeries

inductive Version where
  /-- Values are stored as 64-bit numbers, as they are. -/
  | three
  /-- Values are stored as 32-bit numbers, relative to a baseline of their field. -/
  | four
deriving DecidableEq, Repr

namespace Version

def number : Version → UInt32
  | three => 3
  | four => 4

def ofNumber? (n : UInt32) : Option Version :=
  if n = 3 then some three else if n = 4 then some four else none

@[simp] theorem ofNumber?_number (v : Version) : ofNumber? v.number = some v := by
  cases v <;> rfl

end Version

/-- One value for each axis of space. -/
structure Triple (α : Type) where
  x : α
  y : α
  z : α
deriving DecidableEq, Repr

namespace Triple

variable {α β γ : Type}

def toList (t : Triple α) : List α := [t.x, t.y, t.z]

def map (f : α → β) (t : Triple α) : Triple β := ⟨f t.x, f t.y, f t.z⟩

def zipWith (f : α → β → γ) (s : Triple α) (t : Triple β) : Triple γ :=
  ⟨f s.x t.x, f s.y t.y, f s.z t.z⟩

end Triple

/-- A lattice coordinate. -/
abbrev Grid := Triple UInt32

structure Header where
  applicationMagic : UInt32
  extractionMagic : UInt32
  version : Version
  /-- The lattice spacing in metres. -/
  voxelSize : Double
  /-- The position of the lattice coordinate `(0, 0, 0)` in metres. -/
  origin : Triple Double
  siteCount : UInt64
  fieldCount : UInt32
  fieldHeaderLength : UInt32
deriving DecidableEq

namespace Header

/-- The bytes of the main header. -/
def length : Nat := 60

def hasMagic (h : Header) : Bool :=
  h.applicationMagic == Magic.application && h.extractionMagic == Magic.extraction

/-- The bytes of the main header and the field header together. -/
def totalLength (h : Header) : Nat := length + h.fieldHeaderLength.toNat

/-- The position of a lattice coordinate in metres: one product, one sum, and
one rounding to 32 bits on each axis. -/
def positionOf (h : Header) (grid : Grid) : Triple Single :=
  h.origin.zipWith (fun origin i => (origin + h.voxelSize * .ofNat i.toNat).convert) grid

def encode (h : Header) : Bytes :=
  bytesOfU32 h.applicationMagic ++ bytesOfU32 h.extractionMagic ++ bytesOfU32 h.version.number ++
    h.voxelSize.toBytes ++ h.origin.x.toBytes ++ h.origin.y.toBytes ++ h.origin.z.toBytes ++
    bytesOfU64 h.siteCount ++ bytesOfU32 h.fieldCount ++ bytesOfU32 h.fieldHeaderLength

def slice (bytes : Bytes) (start width : Nat) : Bytes := (bytes.drop start).take width

/-- The header at the front of a byte string; what follows it is not looked at. -/
def decode (bytes : Bytes) : Except Error Header :=
  if bytes.length < length then .error (.truncated .mainHeader length bytes.length)
  else
    let applicationMagic := u32OfBytes (slice bytes 0 4)
    let extractionMagic := u32OfBytes (slice bytes 4 4)
    let version := u32OfBytes (slice bytes 8 4)
    let number := fun start => (Ieee.Number.ofBytes (slice bytes start 8) : Double)
    if applicationMagic ≠ Magic.application then
      .error (.corruptHeader (.applicationMagic applicationMagic))
    else if extractionMagic ≠ Magic.extraction then
      .error (.corruptHeader (.extractionMagic extractionMagic))
    else
      match Version.ofNumber? version with
      | none => .error (.unsupportedVersion version)
      | some version => .ok
        { applicationMagic, extractionMagic, version
          voxelSize := number 12
          origin := ⟨number 20, number 28, number 36⟩
          siteCount := u64OfBytes (slice bytes 44 8)
          fieldCount := u32OfBytes (slice bytes 52 4)
          fieldHeaderLength := u32OfBytes (slice bytes 56 4) }

@[simp] theorem length_encode (h : Header) : h.encode.length = length := by
  simp [encode, length]

end Header

end LatticeSeries
