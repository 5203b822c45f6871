import LatticeSeries.FieldTable
import LatticeSeries.Header
import LatticeSeries.Limits
import LatticeSeries.Xdr

/-!
# The field header

After the main header comes one entry for each declared field: its name, its
number of elements and, in version four, the baseline of its values. The entries
fill the field header exactly. Within an entry the parts are judged in the order
in which they are stored, and the table judges the complete entry.
-/
namespace LatticeSeries

structure FieldEntry where
  name : String
  length : UInt32
  /-- What is added to every stored value; only version four has one. -/
  baseline? : Option Double
deriving DecidableEq

/-- How stored values become physical ones. -/
inductive ValueCoding where
  /-- They are physical values already. -/
  | absolute
  /-- Each field has a baseline to add. The first number belongs to the fields
  that every site has, number `i + 1` to declared field `i`. -/
  | relative (baselines : List Double)
deriving DecidableEq

namespace ValueCoding

def version : ValueCoding → Version
  | absolute => .three
  | relative _ => .four

def baseline? : ValueCoding → Nat → Option Double
  | absolute, _ => none
  | relative baselines, index => baselines[index + 1]?

/-- The coding that the entries of a field header describe. -/
def ofEntries : Version → List FieldEntry → ValueCoding
  | .three, _ => absolute
  | .four, entries => relative (.zero :: entries.filterMap (·.baseline?))

end ValueCoding

namespace FieldEntry

def declaration (e : FieldEntry) : Version → Declaration
  | .three => ⟨e.name, e.length, .f64, .f64⟩
  | .four => ⟨e.name, e.length, .f32, .f32⟩

def encode (e : FieldEntry) : Bytes :=
  Xdr.encodeText e.name ++ bytesOfU32 e.length ++ (e.baseline?.map (·.toBytes)).getD []

/-- Reads one entry and holds its number of elements against the limit. -/
def read (version : Version) (limits : Limits) : Xdr.Reader FieldEntry := do
  let name ← Xdr.readText "field name"
  let length ← Xdr.readU32 "field length"
  liftExcept (Limits.check "field length" length.toNat limits.fieldLength.toNat)
  match version with
  | .three => return ⟨name, length, none⟩
  | .four => return ⟨name, length, some (← Xdr.readDouble "field offset")⟩

/-- Reads `count` entries and declares each in the table as soon as it is complete. -/
def readMany (version : Version) (limits : Limits) :
    (count : Nat) → FieldTable → Xdr.Reader (FieldTable × List FieldEntry)
  | 0, table => return (table, [])
  | count + 1, table => do
    let entry ← read version limits
    let table ← liftExcept
      ((table.declare (entry.declaration version)).mapError Error.corruptHeader)
    let (table, entries) ← readMany version limits count table
    return (table, entry :: entries)

end FieldEntry

structure FieldHeader where
  table : FieldTable
  coding : ValueCoding

namespace FieldHeader

/-- The entries that make this field header, by the declared fields and their baselines. -/
def entries (f : FieldHeader) : List FieldEntry :=
  f.table.declared.zipIdx.map fun (d, index) => ⟨d.name, d.length, f.coding.baseline? index⟩

/-- The field header at the front of a byte string, of the length and with the
number of entries that the main header gives. -/
def decode (header : Header) (limits : Limits) (bytes : Bytes) : Except Error FieldHeader :=
  let declared := header.fieldHeaderLength.toNat
  if bytes.length < declared then
    .error (.corruptHeader (.fieldHeaderCut declared bytes.length))
  else
    match FieldEntry.readMany header.version limits header.fieldCount.toNat .empty
        (.start (bytes.take declared)) with
    | .error fault _ => .error fault
    | .ok (table, entries) cursor =>
      if cursor.remaining = 0 then .ok ⟨table, .ofEntries header.version entries⟩
      else .error (.corruptHeader (.fieldHeaderExcess declared cursor.position))

end FieldHeader

end LatticeSeries
