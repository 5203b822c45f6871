import LatticeSeries.Block
import LatticeSeries.TimeIndex

/-!
# Extraction files

Opening a file validates all of it that does not belong to a single record: the
main header, the field header, the length of a record and the time index, in
this order. Afterwards every time step is decoded from its own record alone,
found by its position or by its value.
-/
namespace LatticeSeries

structure Series where
  path : String
  bytes : Bytes
  header : Header
  table : FieldTable
  coding : ValueCoding
  /-- The bytes of a record, with the value of the time step that leads it. -/
  recordLength : Nat
  index : TimeIndex

namespace Series

/-- Holds the main header against the limits. -/
def checkLimits (limits : Limits) (header : Header) : Except Error Unit := do
  Limits.check "site count" header.siteCount.toNat limits.siteCount.toNat
  Limits.check "field count" header.fieldCount.toNat limits.fieldCount.toNat
  Limits.check "field header length" header.fieldHeaderLength.toNat
    limits.fieldHeaderLength.toNat

/-- The bytes of a record, which have to be counted by a 64-bit word. -/
def recordLengthOf (table : FieldTable) (header : Header) : Except Error Nat :=
  let length := table.rowLength * header.siteCount.toNat + TimeIndex.markerLength
  if length < UInt64.size then .ok length
  else .error (.corruptHeader (.recordLengthOverflow header.siteCount))

/-- Opens a file with the given content under limits that are known to be valid. -/
def ofBytes (limits : Limits) (path : String) (bytes : Bytes) : Except Error Series := do
  let header ← Header.decode bytes
  checkLimits limits header
  let fields ← FieldHeader.decode header limits (bytes.drop Header.length)
  let recordLength ← recordLengthOf fields.table header
  let index ← TimeIndex.build bytes header.totalLength recordLength
  return { path, bytes, header, table := fields.table, coding := fields.coding
           recordLength, index }

/-- Opens the file at a path, if there is one. The limits are judged first. -/
def load (limits : Limits) (path : String) (content? : Option Bytes) : Except Error Series := do
  limits.validate.mapError Error.settings
  match content? with
  | none => throw .missingFile
  | some bytes => ofBytes limits path bytes

def timeCount (s : Series) : Nat := s.index.size

def times (s : Series) : List UInt64 := s.index.times

def timeStepAt (s : Series) (index : Nat) : Except Error UInt64 :=
  (s.index.get index).map (·.timeStep)

/-- The position of the time step with exactly this value. -/
def indexOfTimeStep (s : Series) (timeStep : UInt64) : Except Error Nat :=
  s.index.positionOf timeStep

def recordAt (s : Series) (entry : TimeEntry) : Except Error Record :=
  Record.ofBlock s.coding s.table s.header entry.timeStep
    ((s.bytes.drop (entry.offset + TimeIndex.markerLength)).take
      (s.recordLength - TimeIndex.markerLength))

def lookupByIndex (s : Series) (index : Nat) : Except Error Record := do
  s.recordAt (← s.index.get index)

/-- Decodes the time step with exactly this value. -/
def lookupByTimeStep (s : Series) (timeStep : UInt64) : Except Error Record := do
  s.lookupByIndex (← s.indexOfTimeStep timeStep)

end Series

end LatticeSeries
