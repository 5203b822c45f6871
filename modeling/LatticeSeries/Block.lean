import LatticeSeries.FieldHeader
import LatticeSeries.Record

/-!
# Blocks of rows

The sites of one time step are stored as a block: one row for each site, and in
each row the coordinate followed by the elements of the declared fields. Writing
a row loses nothing. Reading a block widens every element to 64 bits, adds the
baseline of its field if there is one, and keeps the result in the precision
that the field has in memory.
-/
namespace LatticeSeries

/-- A stored element. -/
inductive Scalar where
  | u32 (value : UInt32)
  | u64 (value : UInt64)
  | f32 (value : Single)
  | f64 (value : Double)
deriving DecidableEq

namespace Scalar

def type : Scalar → ElementType
  | u32 _ => .u32
  | u64 _ => .u64
  | f32 _ => .f32
  | f64 _ => .f64

def encode : Scalar → Bytes
  | u32 value => bytesOfU32 value
  | u64 value => bytesOfU64 value
  | f32 value => value.toBytes
  | f64 value => value.toBytes

def decode (type : ElementType) (bytes : Bytes) : Scalar :=
  match type with
  | .u32 => u32 (u32OfBytes bytes)
  | .u64 => u64 (u64OfBytes bytes)
  | .f32 => f32 (.ofBytes bytes)
  | .f64 => f64 (.ofBytes bytes)

/-- The value as a 64-bit number; a large integer is rounded. -/
def toDouble : Scalar → Double
  | u32 value => .ofNat value.toNat
  | u64 value => .ofNat value.toNat
  | f32 value => value.convert
  | f64 value => value

/-- `count` elements of one type, one after the other. -/
def decodeMany (type : ElementType) : (count : Nat) → Bytes → List Scalar
  | 0, _ => []
  | count + 1, bytes =>
    decode type (bytes.take type.size) :: decodeMany type count (bytes.drop type.size)

@[simp] theorem type_decode (type : ElementType) (bytes : Bytes) :
    (decode type bytes).type = type := by
  cases type <;> rfl

@[simp] theorem length_encode (s : Scalar) : s.encode.length = s.type.size := by
  cases s <;> simp [encode, type, ElementType.size]

@[simp] theorem decode_encode (s : Scalar) : decode s.type s.encode = s := by
  cases s <;> simp [decode, type, encode]

theorem encode_decode {type : ElementType} {bytes : Bytes} (h : bytes.length = type.size) :
    (decode type bytes).encode = bytes := by
  cases type with
  | u32 => exact bytesOfU32_u32OfBytes h
  | u64 => exact bytesOfU64_u64OfBytes h
  | f32 => exact Ieee.Number.toBytes_ofBytes rfl h
  | f64 => exact Ieee.Number.toBytes_ofBytes rfl h

@[simp] theorem length_decodeMany (type : ElementType) (count : Nat) (bytes : Bytes) :
    (decodeMany type count bytes).length = count := by
  induction count generalizing bytes with
  | zero => rfl
  | succ count ih => simp [decodeMany, ih]

end Scalar

namespace Grid

def encode (g : Grid) : Bytes := bytesOfU32 g.x ++ bytesOfU32 g.y ++ bytesOfU32 g.z

def decode (row : Bytes) : Grid :=
  ⟨u32OfBytes (row.take 4), u32OfBytes ((row.drop 4).take 4), u32OfBytes ((row.drop 8).take 4)⟩

end Grid

/-- One row: a coordinate, then the elements of each declared field. -/
structure Row where
  grid : Grid
  cells : List (List Scalar)
deriving DecidableEq

namespace Row

def encode (r : Row) : Bytes := Grid.encode r.grid ++ r.cells.flatten.flatMap Scalar.encode

end Row

/-- The first `count` pieces of `width` bytes. -/
def pieces (width : Nat) : (count : Nat) → Bytes → List Bytes
  | 0, _ => []
  | count + 1, bytes => bytes.take width :: pieces width count (bytes.drop width)

@[simp] theorem length_pieces (width count : Nat) (bytes : Bytes) :
    (pieces width count bytes).length = count := by
  induction count generalizing bytes with
  | zero => rfl
  | succ count ih => simp [pieces, ih]

namespace Values

def type : Values → ElementType
  | single _ => .f32
  | double _ => .f64

/-- Elements kept in the precision of a type: 32 bits for a 32-bit number, else 64. -/
def ofDoubles (type : ElementType) (elements : List Double) : Values :=
  match type with
  | .f32 => single (elements.map (·.convert)).toArray
  | _ => double elements.toArray

@[simp] theorem size_ofDoubles (type : ElementType) (elements : List Double) :
    (ofDoubles type elements).size = elements.length := by
  cases type <;> simp [ofDoubles, size]

end Values

namespace ValueCoding

/-- The physical value of a stored element of a field with this baseline. -/
def physical (baseline? : Option Double) (s : Scalar) : Double :=
  match baseline? with
  | none => s.toDouble
  | some baseline => s.toDouble + baseline

end ValueCoding

namespace Column

/-- The column of a declared field that begins at `offset` in each of the rows. -/
def ofRows (d : Declaration) (offset : Nat) (baseline? : Option Double) (rows : List Bytes) :
    Column where
  name := d.name
  length := d.length.toNat
  data := .ofDoubles d.memoryType <| rows.flatMap fun row =>
    (Scalar.decodeMany d.diskType d.length.toNat (row.drop offset)).map
      (ValueCoding.physical baseline?)

theorem size_data_ofRows (d : Declaration) (offset : Nat) (baseline? : Option Double)
    (rows : List Bytes) :
    (ofRows d offset baseline? rows).data.size = rows.length * d.length.toNat := by
  induction rows with
  | nil => simp [ofRows]
  | cons row rows ih =>
    simp only [ofRows, Values.size_ofDoubles, List.flatMap_cons, List.length_append] at ih ⊢
    simp [ih, Nat.add_mul, Nat.add_comm]

end Column

namespace Record

def ofRows (coding : ValueCoding) (table : FieldTable) (header : Header) (timeStep : UInt64)
    (rows : List Bytes) : Record where
  timeStep := timeStep
  places := (rows.map fun row =>
    let grid := Grid.decode row
    ⟨grid, header.positionOf grid⟩).toArray
  columns := table.placed.zipIdx.map fun ((d, offset), index) =>
    Column.ofRows d offset (coding.baseline? index) rows
  size_data := by
    intro c hc
    obtain ⟨⟨⟨d, offset⟩, index⟩, _, rfl⟩ := List.mem_map.1 hc
    rw [Column.size_data_ofRows]
    simp [Column.ofRows]

/-- The record of a block, which has to hold one row for each site. -/
def ofBlock (coding : ValueCoding) (table : FieldTable) (header : Header) (timeStep : UInt64)
    (block : Bytes) : Except Error Record :=
  let expected := table.rowLength * header.siteCount.toNat
  if block.length = expected then
    .ok (ofRows coding table header timeStep
      (pieces table.rowLength header.siteCount.toNat block))
  else .error (.truncated .timeStepBlock expected block.length)

end Record

end LatticeSeries
