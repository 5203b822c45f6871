import LatticeSeries.Error

/-!
# The time index

The body of a file is a run of records of equal length, each led by the value of
its time step. The index lists these values with the offsets of their records.
The values ascend strictly, so a value is found by halving.
-/
namespace LatticeSeries

structure TimeEntry where
  timeStep : UInt64
  /-- The offset of the record from the start of the file. -/
  offset : Nat
deriving DecidableEq, Repr

namespace TimeEntry

/-- The first pair of neighbours that does not ascend, with the index of the
second. The first entry has the given index. -/
def firstDescent? (index : Nat) : List TimeEntry → Option (Nat × UInt64 × UInt64)
  | a :: b :: entries =>
    if a.timeStep < b.timeStep then firstDescent? (index + 1) (b :: entries)
    else some (index + 1, a.timeStep, b.timeStep)
  | _ => none

theorem pairwise_of_firstDescent? {index : Nat} {entries : List TimeEntry}
    (h : firstDescent? index entries = none) :
    (entries.map (·.timeStep)).Pairwise (· < ·) := by
  induction entries generalizing index with
  | nil => simp
  | cons a entries ih =>
    cases entries with
    | nil => simp
    | cons b entries =>
      simp only [firstDescent?] at h
      split at h
      · rename_i hab
        have hb := ih h
        simp only [List.map_cons, List.pairwise_cons] at hb ⊢
        refine ⟨?_, hb⟩
        intro t ht
        rcases List.mem_cons.1 ht with rfl | ht
        · exact hab
        · exact UInt64.lt_trans hab (hb.1 t ht)
      · simp at h

end TimeEntry

@[ext]
structure TimeIndex where
  entries : Array TimeEntry
  ascending : (entries.toList.map (·.timeStep)).Pairwise (· < ·)

namespace TimeIndex

/-- The bytes of the value that leads a record. -/
def markerLength : Nat := 8

def size (index : TimeIndex) : Nat := index.entries.size

def isEmpty (index : TimeIndex) : Bool := index.size = 0

/-- The values of the time steps, in file order. -/
def times (index : TimeIndex) : List UInt64 := index.entries.toList.map (·.timeStep)

/-- The entries of the first `count` records, the first of which begins the
bytes and lies at the offset. -/
def scan (recordLength : Nat) : (count offset : Nat) → Bytes → List TimeEntry
  | 0, _, _ => []
  | count + 1, offset, bytes =>
    ⟨u64OfBytes (bytes.take markerLength), offset⟩ ::
      scan recordLength count (offset + recordLength) (bytes.drop recordLength)

@[simp] theorem length_scan (recordLength count offset : Nat) (bytes : Bytes) :
    (scan recordLength count offset bytes).length = count := by
  induction count generalizing offset bytes with
  | zero => rfl
  | succ count ih => simp [scan, ih]

def ofEntries (entries : List TimeEntry) : Except Error TimeIndex :=
  match h : TimeEntry.firstDescent? 0 entries with
  | some (index, previous, current) => .error (.unorderedTimeSteps index previous current)
  | none => .ok ⟨entries.toArray, by simpa using TimeEntry.pairwise_of_firstDescent? h⟩

/-- The index of a file whose body follows `headerLength` bytes and holds
records of `recordLength` bytes. -/
def build (file : Bytes) (headerLength recordLength : Nat) : Except Error TimeIndex :=
  let bodyLength := file.length - headerLength
  let residual := bodyLength % recordLength
  if recordLength < markerLength then
    .error (.corruptHeader (.recordLengthBelowMarker recordLength))
  else if file.length < headerLength then
    .error (.truncated .headers headerLength file.length)
  else if residual ≠ 0 then .error (.corruptBody bodyLength recordLength residual)
  else
    ofEntries (scan recordLength (bodyLength / recordLength) headerLength
      (file.drop headerLength))

def get (index : TimeIndex) (i : Nat) : Except Error TimeEntry :=
  match index.entries[i]? with
  | some entry => .ok entry
  | none => .error (.indexOutOfRange i index.size)

/-- The position of a value in the part of the entries from `low` up to `high`,
found by halving the part. -/
def searchBetween (entries : Array TimeEntry) (timeStep : UInt64) (low high : Nat)
    (bound : high ≤ entries.size) : Option Nat :=
  if proper : low < high then
    let middle := low + (high - low) / 2
    have inside : middle < entries.size := by omega
    let found := entries[middle].timeStep
    if found = timeStep then some middle
    else if found < timeStep then searchBetween entries timeStep (middle + 1) high bound
    else searchBetween entries timeStep low middle (by omega)
  else none
termination_by high - low

def positionOf (index : TimeIndex) (timeStep : UInt64) : Except Error Nat :=
  match searchBetween index.entries timeStep 0 index.entries.size (Nat.le_refl _) with
  | some position => .ok position
  | none => .error (.timeStepNotFound timeStep)

end TimeIndex

end LatticeSeries
