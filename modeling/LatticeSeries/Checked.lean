import LatticeSeries.Recording

/-!
# Decoding with checked operations

A time step is decoded here, its sites are viewed, and the time index is built,
with the operations of a machine whose words have 64 bits: a sum or product that
needs more, a division by zero, an element or bytes taken from past the end, and
an allocation beyond the room that a process has are faults, and a fault ends the
program. Errors that are reported to the caller are results and no faults.
-/
namespace LatticeSeries

inductive Fault where
  | overflow
  | outOfBounds
  | zeroWidth
  | noRoom
  | assertion
deriving DecidableEq, Repr

/-- The result of an operation, unless it faults. -/
abbrev Checked := Except Fault

namespace Checked

def add (a b : Nat) : Checked Nat :=
  if a + b < UInt64.size then .ok (a + b) else .error .overflow

def mul (a b : Nat) : Checked Nat :=
  if a * b < UInt64.size then .ok (a * b) else .error .overflow

/-- The bytes from `start` up to `stop`. -/
def slice (bytes : Bytes) (start stop : Nat) : Checked Bytes :=
  if start ≤ stop ∧ stop ≤ bytes.length then .ok ((bytes.drop start).take (stop - start))
  else .error .outOfBounds

def split (width : Nat) (bytes : Bytes) : Checked (Bytes × Bytes) :=
  if width ≤ bytes.length then .ok (bytes.take width, bytes.drop width) else .error .outOfBounds

def chunks (width : Nat) (bytes : Bytes) : Checked (List Bytes) :=
  if width = 0 then .error .zeroWidth else .ok (pieces width (bytes.length / width) bytes)

/-- Asks for the room of `count` elements. -/
def allocate (room count width : Nat) : Checked Unit :=
  if count * width ≤ room then .ok () else .error .noRoom

def diskSize (f : Field) : Checked Nat :=
  match f.storage with
  | .computed => .ok 0
  | .stored type _ => mul type.size f.length.toNat

/-- The sizes of the fields are added one after the other. -/
def totalSize (total : Nat) : List Field → Checked Nat
  | [] => .ok total
  | f :: fs => do
    let size ← diskSize f
    let total ← add total size
    totalSize total fs

def rowLength (t : FieldTable) : Checked Nat := totalSize 0 t.stored

/-- The bytes of a record. That they are too many for a word is reported to the caller. -/
def recordLength (t : FieldTable) (header : Header) : Checked (Except Error Nat) := do
  let row ← rowLength t
  let length : Checked Nat := do
    let rows ← mul row header.siteCount.toNat
    add rows TimeIndex.markerLength
  return length.mapError fun _ => .corruptHeader (.recordLengthOverflow header.siteCount)

def grid (row : Bytes) : Checked Grid := do
  let (x, row) ← split 4 row
  let (y, row) ← split 4 row
  let (z, _) ← split 4 row
  return ⟨u32OfBytes x, u32OfBytes y, u32OfBytes z⟩

/-- Asks for the room of a column, in one of the two precisions that columns have. -/
def allocateColumn (room siteCount : Nat) (d : Declaration) : Checked Unit := do
  let count ← mul siteCount d.length.toNat
  match d.memoryType with
  | .f32 => allocate room count ElementType.f32.size
  | _ => allocate room count ElementType.f64.size

/-- The column of a field before the first row, with room for the elements of all sites. -/
def emptyColumn (room siteCount : Nat) (d : Declaration) : Checked Column := do
  allocateColumn room siteCount d
  return ⟨d.name, d.length.toNat, .ofDoubles d.memoryType []⟩

/-- One more element, in the precision of the others. -/
def push : Values → Double → Values
  | .single elements, x => .single (elements.push x.convert)
  | .double elements, x => .double (elements.push x)

/-- Reads `count` elements, one behind the other. -/
def pushElements (baseline? : Option Double) (type : ElementType) :
    (count : Nat) → Bytes → Values → Checked Values
  | 0, _, data => .ok data
  | count + 1, bytes, data => do
    let (front, rest) ← split type.size bytes
    let x := ValueCoding.physical baseline? (Scalar.decode type front)
    pushElements baseline? type count rest (push data x)

def pushCell (baseline? : Option Double) (row : Bytes) (d : Declaration) (offset : Nat)
    (c : Column) : Checked Column := do
  let size ← mul d.diskType.size d.length.toNat
  let stop ← add offset size
  let bytes ← slice row offset stop
  let data ← pushElements baseline? d.diskType d.length.toNat bytes c.data
  return { c with data }

/-- Goes through the fields and their columns side by side; the first field has the index. -/
def pushRow (coding : ValueCoding) (row : Bytes) :
    (index : Nat) → List (Declaration × Nat) → List Column → Checked (List Column)
  | index, (d, offset) :: placed, c :: columns => do
    let c ← pushCell (coding.baseline? index) row d offset c
    let columns ← pushRow coding row (index + 1) placed columns
    return c :: columns
  | _, _, _ => .ok []

def pushRows (coding : ValueCoding) (table : FieldTable) :
    List Bytes → List Grid → List Column → Checked (List Grid × List Column)
  | [], grids, columns => .ok (grids, columns)
  | row :: rows, grids, columns => do
    let coordinate ← grid row
    let columns ← pushRow coding row 0 table.placed columns
    pushRows coding table rows (grids ++ [coordinate]) columns

/-- The record of full columns; there has to be one coordinate for each site. -/
def conclude (header : Header) (timeStep : UInt64) (grids : List Grid) (columns : List Column) :
    Checked Record :=
  let places := grids.map fun g => ⟨g, header.positionOf g⟩
  if whole : places.length = header.siteCount.toNat ∧
      ∀ c ∈ columns, c.data.size = places.toArray.size * c.length then
    .ok ⟨timeStep, places.toArray, columns, whole.2⟩
  else .error .assertion

/-- Decodes a block, after its length was compared with the length that the headers ask
for. The columns grow while the rows are read: each element goes to the end of the column
of its field. -/
def fillBlock (room : Nat) (coding : ValueCoding) (table : FieldTable) (header : Header)
    (timeStep : UInt64) (block : Bytes) : Checked (Except Error Record) := do
  let siteCount := header.siteCount.toNat
  let rowLength ← rowLength table
  let expected ← mul rowLength siteCount
  if block.length = expected then
    let columns ← table.declared.mapM (emptyColumn room siteCount)
    allocate room siteCount Field.grid.memorySize
    let rows ← chunks rowLength block
    let (grids, columns) ← pushRows coding table rows [] columns
    allocate room siteCount Field.identifier.memorySize
    allocate room siteCount Field.position.memorySize
    let record ← conclude header timeStep grids columns
    return .ok record
  else return .error (.truncated .timeStepBlock expected block.length)

def lookup (room : Nat) (s : Series) (index : Nat) : Checked (Except Error Record) :=
  match s.index.get index with
  | .error fault => .ok (.error fault)
  | .ok entry => do
    let start ← add entry.offset TimeIndex.markerLength
    let stop ← add entry.offset s.recordLength
    let block ← slice s.bytes start stop
    fillBlock room s.coding s.table s.header entry.timeStep block

/-- The element of a list, which has to be there. -/
def element {α : Type} (xs : List α) (i : Nat) : Checked α :=
  match xs[i]? with
  | some x => .ok x
  | none => .error .outOfBounds

def range (v : Values) (start stop : Nat) : Checked Values :=
  if start ≤ stop ∧ stop ≤ v.size then .ok (v.extract start stop) else .error .outOfBounds

/-- The elements of a site, for any column and any number of a site. -/
def valuesAt (c : Column) (site : Nat) : Checked Values := do
  let start ← mul site c.length
  let stop ← add start c.length
  range c.data start stop

def siteId (s : Site) : Checked UInt64 := element s.record.ids s.index

def sitePlace (s : Site) : Checked Place := element s.record.places.toList s.index

def siteValue? (s : Site) (name : String) : Checked (Option Values) :=
  match s.record.column? name with
  | none => .ok none
  | some c => do
    let v ← valuesAt c s.index
    return some v

def siteValues (s : Site) : Checked (List (String × Values)) :=
  s.record.columns.mapM fun c => do
    let v ← valuesAt c s.index
    return (c.name, v)

def quotient (a width : Nat) : Checked Nat :=
  if width = 0 then .error .zeroWidth else .ok (a / width)

def remainder (a width : Nat) : Checked Nat :=
  if width = 0 then .error .zeroWidth else .ok (a % width)

/-- The entry of record `i`, whose place is computed anew. -/
def scanAt (file : Bytes) (headerLength recordLength i : Nat) : Checked TimeEntry := do
  let distance ← mul i recordLength
  let offset ← add headerLength distance
  let stop ← add offset TimeIndex.markerLength
  let marker ← slice file offset stop
  return ⟨u64OfBytes marker, offset⟩

/-- The index of entries that ascend. Of those that do not, the first pair of
neighbours at fault is looked up again for the report. -/
def ofEntries (entries : List TimeEntry) : Checked (Except Error TimeIndex) :=
  match (entries.zip entries.tail).findIdx? fun (a, b) => b.timeStep ≤ a.timeStep with
  | some i => do
    let previous ← element entries i
    let current ← element entries (i + 1)
    return .error (.unorderedTimeSteps (i + 1) previous.timeStep current.timeStep)
  | none =>
    if ascending : (entries.map (·.timeStep)).Pairwise (· < ·) then
      .ok (.ok ⟨entries.toArray, ascending⟩)
    else .error .assertion

/-- The bytes of an entry in the index: two words. -/
def entrySize : Nat := 16

def build (room : Nat) (file : Bytes) (headerLength recordLength : Nat) :
    Checked (Except Error TimeIndex) := do
  if recordLength < TimeIndex.markerLength then
    return .error (.corruptHeader (.recordLengthBelowMarker recordLength))
  else if file.length < headerLength then
    return .error (.truncated .headers headerLength file.length)
  else
    let bodyLength := file.length - headerLength
    let residual ← remainder bodyLength recordLength
    if residual ≠ 0 then
      return .error (.corruptBody bodyLength recordLength residual)
    else
      let count ← quotient bodyLength recordLength
      allocate room count entrySize
      let entries ← (List.range count).mapM (scanAt file headerLength recordLength)
      ofEntries entries

end Checked

end LatticeSeries
