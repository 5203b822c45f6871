import LatticeSeries.FieldTable

/-!
# Packed layouts

A layout says where each field of a record begins when the fields follow each
other without a gap. The row on disk is one such record, made of the stored
fields in their stored types; a decoded site is another, made of all fields in
their types in memory.
-/
namespace LatticeSeries

-- Sums of sizes are those of core.
attribute [local instance (2000)] Zero.ofOfNat0

structure LayoutEntry where
  name : String
  type : ElementType
  length : UInt32
  offset : Nat
deriving DecidableEq, Repr

namespace LayoutEntry

def size (e : LayoutEntry) : Nat := e.type.size * e.length.toNat

/-- The offset of the first byte past the field. -/
def limit (e : LayoutEntry) : Nat := e.offset + e.size

end LayoutEntry

structure Layout where
  entries : List LayoutEntry
  recordSize : Nat
deriving DecidableEq, Repr

namespace FieldTable

/-- The stored fields at their offsets in a row. -/
def diskLayout (t : FieldTable) : Layout where
  entries := t.stored.filterMap fun f =>
    match f.storage with
    | .computed => none
    | .stored type offset => some ⟨f.name, type, f.length, offset⟩
  recordSize := t.rowLength

/-- Decoded fields one after the other, the first at the offset. -/
def packFrom (offset : Nat) : List Field → List LayoutEntry
  | [] => []
  | f :: fs => ⟨f.name, f.memoryType, f.length, offset⟩ :: packFrom (offset + f.memorySize) fs

def memoryLayout (t : FieldTable) : Layout where
  entries := packFrom 0 t.fields
  recordSize := (t.fields.map Field.memorySize).sum

@[simp] theorem length_packFrom (offset : Nat) (fs : List Field) :
    (packFrom offset fs).length = fs.length := by
  induction fs generalizing offset with
  | nil => rfl
  | cons f fs ih => simp [packFrom, ih]

end FieldTable

end LatticeSeries
