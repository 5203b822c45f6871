import LatticeSeries.Series

/-!
# Writing extraction files

A recording is the content of a file before it is encoded: the parameters of
the main header, the declared fields, and the time steps with their rows of
stored elements. The counts and lengths in the headers follow from it. Decoding
a time step is described here once more, from the stored elements and not from
bytes, and a decoded time step can be turned back into stored elements.
-/
namespace LatticeSeries

-- Sums of sizes are those of core.
attribute [local instance (2000)] Zero.ofOfNat0

structure Frame where
  timeStep : UInt64
  rows : List Row
deriving DecidableEq

namespace Frame

def encode (f : Frame) : Bytes := bytesOfU64 f.timeStep ++ f.rows.flatMap Row.encode

end Frame

namespace Row

/-- The cells hold the elements of these fields, of the right number and type. -/
def CellsFit : List Declaration → List (List Scalar) → Prop
  | [], [] => True
  | d :: ds, cell :: cells =>
    (cell.length = d.length.toNat ∧ ∀ x ∈ cell, x.type = d.diskType) ∧ CellsFit ds cells
  | _, _ => False

end Row

/-- What a stored element is in memory. A 64-bit number of a field without a baseline is
kept. A 32-bit number is widened, added to the baseline of its field, and rounded to 32
bits again. -/
inductive Scalar.ReadsAs : Option Double → Scalar → Scalar → Prop where
  | kept (x : Double) : ReadsAs none (.f64 x) (.f64 x)
  | shifted (baseline : Double) (x : Single) :
    ReadsAs (some baseline) (.f32 x) (.f32 ((x.convert : Double) + baseline).convert)

/-- The column of a field, from the elements that each site stores for it. -/
def FieldEntry.column (e : FieldEntry) (cells : List (List Scalar)) : Column where
  name := e.name
  length := e.length.toNat
  data :=
    match e.baseline? with
    | none => .double (cells.flatten.map Scalar.toDouble).toArray
    | some baseline => .single (cells.flatten.map fun x => (x.toDouble + baseline).convert).toArray

/-- The record is what the rows of this time step decode to. -/
structure Frame.DecodesTo (header : Header) (entries : List FieldEntry) (f : Frame)
    (r : Record) : Prop where
  timeStep : r.timeStep = f.timeStep
  places : r.places.toList = f.rows.map fun row => ⟨row.grid, header.positionOf row.grid⟩
  columns : r.columns = entries.zipIdx.map fun (e, index) =>
    e.column (f.rows.map fun row => (row.cells[index]?).getD [])

/-- The elements in the type that they have in memory. -/
def Values.scalars : Values → List Scalar
  | single elements => elements.toList.map .f32
  | double elements => elements.toList.map .f64

theorem Values.length_scalars (v : Values) : v.scalars.length = v.size := by
  cases v <;> simp [scalars, size]

theorem Values.scalars_extract (v : Values) (start stop : Nat) :
    (v.extract start stop).scalars = (v.scalars.drop start).take (stop - start) := by
  cases v <;> simp [extract, scalars, List.extract_eq_take_drop]

theorem Column.scalars_slice (c : Column) (site : Nat) :
    (c.slice site).scalars = (c.data.scalars.drop (site * c.length)).take c.length := by
  rw [slice, Values.scalars_extract, Nat.add_sub_cancel_left]

/-- The row that stores the decoded elements of a site. -/
def Site.row (s : Site) : Row := ⟨s.place.grid, s.values.map fun (_, v) => v.scalars⟩

/-- The time step that stores the decoded elements of a record. -/
def Record.frame (r : Record) : Frame := ⟨r.timeStep, r.sites.map Site.row⟩

def Series.entries (s : Series) : List FieldEntry := FieldHeader.entries ⟨s.table, s.coding⟩

/-- The byte of the file at this offset belongs to an element of a declared field. -/
def Series.IsPayload (s : Series) (offset : Nat) : Prop :=
  s.header.totalLength ≤ offset ∧
    let inRecord := (offset - s.header.totalLength) % s.recordLength
    TimeIndex.markerLength ≤ inRecord ∧
      Field.grid.diskSize ≤ (inRecord - TimeIndex.markerLength) % s.table.rowLength

/-- The content of a file, before it is encoded. -/
structure Recording where
  version : Version
  voxelSize : Double
  origin : Triple Double
  siteCount : UInt64
  entries : List FieldEntry
  frames : List Frame

namespace Recording

def fieldHeader (r : Recording) : Bytes := r.entries.flatMap FieldEntry.encode

def header (r : Recording) : Header where
  applicationMagic := Magic.application
  extractionMagic := Magic.extraction
  version := r.version
  voxelSize := r.voxelSize
  origin := r.origin
  siteCount := r.siteCount
  fieldCount := UInt32.ofNat r.entries.length
  fieldHeaderLength := UInt32.ofNat r.fieldHeader.length

/-- The declared fields, with the types of the version. -/
def declarations (r : Recording) : List Declaration := r.entries.map (·.declaration r.version)

/-- The bytes of a row: the coordinate, then the elements of the declared fields. -/
def rowLength (r : Recording) : Nat :=
  Field.grid.diskSize + (r.declarations.map Declaration.diskSize).sum

/-- The bytes of a record: the value of the time step, then one row for each site. -/
def recordLength (r : Recording) : Nat :=
  r.rowLength * r.siteCount.toNat + TimeIndex.markerLength

def encode (r : Recording) : Bytes :=
  r.header.encode ++ r.fieldHeader ++ r.frames.flatMap Frame.encode

/-- A recording that has a file: the fields can be declared and their header
counted, and every time step holds one fitting row for each site. -/
structure WellFormed (r : Recording) : Prop where
  names_nodup : (reservedNames ++ r.entries.map (·.name)).Nodup
  length_ne_zero : ∀ e ∈ r.entries, e.length ≠ 0
  baseline : ∀ e ∈ r.entries, e.baseline?.isSome ↔ r.version = .four
  fieldHeader_lt : r.fieldHeader.length < UInt32.size
  recordLength_lt : r.recordLength < UInt64.size
  ascending : (r.frames.map (·.timeStep)).Pairwise (· < ·)
  length_rows : ∀ f ∈ r.frames, f.rows.length = r.siteCount.toNat
  cellsFit : ∀ f ∈ r.frames, ∀ row ∈ f.rows, Row.CellsFit r.declarations row.cells

end Recording

end LatticeSeries
