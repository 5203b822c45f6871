import LatticeSeries.Checked
import LatticeSeries.FieldTable.Layout
import Mathlib.Data.List.Basic

/-!
# Registries of fields

A field table keeps declarations and derives the fields from them. A registry
keeps the fields themselves: the computed ones and the stored ones, each with its
place, and for each name the position of its field among all of them. An append
has to write all of this so that it stays together. Sizes are exact numbers here;
whether they fit into words is asked of the checked operations.
-/
namespace LatticeSeries

-- Sums of sizes are those of core.
attribute [local instance (2000)] Zero.ofOfNat0

structure Registry where
  computed : List Field
  stored : List Field
  /-- Where a name stands among all fields. -/
  positions : Std.HashMap String Nat

namespace Registry

/-- All fields: the computed ones, then the stored ones. -/
def fields (r : Registry) : List Field := r.computed ++ r.stored

def size (r : Registry) : Nat := r.computed.length + r.stored.length

/-- The stored fields behind the coordinate. -/
def declared (r : Registry) : List Field := r.stored.drop 1

/-- The bytes of a row. -/
def rowLength (r : Registry) : Nat := (r.stored.map Field.diskSize).sum

def get? (r : Registry) (name : String) : Option Field := do
  let i ← r.positions[name]?
  r.fields[i]?

def initial : Registry where
  computed := [.identifier, .position]
  stored := [.grid]
  positions := .ofList <|
    [Field.identifier, .position, .grid].zipIdx.map fun (f, i) => (f.name, i)

/-- A new last field, behind the row as it is. -/
def append (d : Declaration) : EStateM HeaderFault Registry Unit := do
  let r ← get
  if d.name ∈ r.positions then throw (.duplicateName d.name)
  else if d.length = 0 then throw (.noElements d.name)
  else
    let offset := r.rowLength
    set { r with positions := r.positions.insert d.name r.size }
    modify fun r => { r with stored := r.stored ++ [d.placeAt offset] }

/-- The registry that an append leaves, whether it succeeds or not. -/
def attempt (r : Registry) (d : Declaration) : Registry :=
  match append d r with
  | .ok _ r' => r'
  | .error _ r' => r'

def attempts (r : Registry) (ds : List Declaration) : Registry := ds.foldl attempt r

/-- The registry after one append for each declaration. -/
def after (ds : List Declaration) : Registry := initial.attempts ds

/-- Those of the declarations that are appended when each is tried in turn. -/
def accepted (r : Registry) : List Declaration → List Declaration
  | [] => []
  | d :: ds =>
    match append d r with
    | .ok _ r' => d :: accepted r' ds
    | .error _ r' => accepted r' ds

def entryOnDisk? (f : Field) : Option LayoutEntry := do
  let type ← f.diskType?
  let offset ← f.offset?
  return ⟨f.name, type, f.length, offset⟩

/-- The stored fields at their offsets in a row. -/
def diskLayout (r : Registry) : Layout where
  entries := r.stored.filterMap entryOnDisk?
  recordSize := r.rowLength

/-- Decoded fields one after the other. The record ends where the next field would begin. -/
def pack (offset : Nat) : List Field → Layout
  | [] => ⟨[], offset⟩
  | f :: fs =>
    let rest := pack (offset + f.memorySize) fs
    { rest with entries := ⟨f.name, f.memoryType, f.length, offset⟩ :: rest.entries }

def memoryLayout (r : Registry) : Layout := pack 0 r.fields

end Registry

/-- The table after one declaration for each of the list; one that is refused changes nothing. -/
def FieldTable.attempt (t : FieldTable) (d : Declaration) : FieldTable :=
  match t.declare d with
  | .ok t' => t'
  | .error _ => t

def FieldTable.attempts (t : FieldTable) (ds : List Declaration) : FieldTable :=
  ds.foldl FieldTable.attempt t

def FieldTable.after (ds : List Declaration) : FieldTable := empty.attempts ds

/-- The same packing, where a sum that needs more than a word is a fault. -/
def Checked.pack (offset : Nat) : List Field → Checked Layout
  | [] => .ok ⟨[], offset⟩
  | f :: fs => do
    let size ← mul f.memoryType.size f.length.toNat
    let next ← add offset size
    let rest ← pack next fs
    return { rest with entries := ⟨f.name, f.memoryType, f.length, offset⟩ :: rest.entries }

end LatticeSeries
