import LatticeSeries.Error

/-!
# The fields of a site

Every site has an identifier, a position and a lattice coordinate; a file
declares further fields by name. The identifier and the position are not
stored. The stored fields lie in a row one after the other, the coordinate
first, so the offset of a field follows from the fields before it. A table keeps
the names distinct and the declared fields non-empty.
-/
namespace LatticeSeries

-- Sums of sizes are those of core.
attribute [local instance (2000)] Zero.ofOfNat0

inductive ElementType where
  | u32
  | u64
  | f32
  | f64
deriving DecidableEq, Repr

namespace ElementType

def size : ElementType → Nat
  | u32 | f32 => 4
  | u64 | f64 => 8

def text : ElementType → String
  | u32 => "u32"
  | u64 => "u64"
  | f32 => "f32"
  | f64 => "f64"

theorem size_pos (type : ElementType) : 0 < type.size := by cases type <;> decide

end ElementType

/-- Where the values of a field come from. -/
inductive Storage where
  /-- Computed by the reader. -/
  | computed
  /-- Read from a row, at a byte offset. -/
  | stored (type : ElementType) (offset : Nat)
deriving DecidableEq, Repr

/-- A field of a site, with its place. -/
structure Field where
  name : String
  storage : Storage
  memoryType : ElementType
  /-- Elements in a site. -/
  length : UInt32
deriving DecidableEq, Repr

namespace Field

def diskType? (f : Field) : Option ElementType :=
  match f.storage with
  | .computed => none
  | .stored type _ => some type

def offset? (f : Field) : Option Nat :=
  match f.storage with
  | .computed => none
  | .stored _ offset => some offset

def isComputed (f : Field) : Bool := f.storage = .computed

def isScalar (f : Field) : Bool := f.length = 1

def diskSize (f : Field) : Nat :=
  match f.storage with
  | .computed => 0
  | .stored type _ => type.size * f.length.toNat

/-- The bytes of the decoded field in a site. -/
def memorySize (f : Field) : Nat := f.memoryType.size * f.length.toNat

def identifier : Field := ⟨"id", .computed, .u64, 1⟩

def position : Field := ⟨"position", .computed, .f32, 3⟩

def grid : Field := ⟨"grid", .stored .u32 0, .u32, 3⟩

end Field

/-- A field as it is declared, before it has a place. -/
structure Declaration where
  name : String
  /-- Elements in a site. -/
  length : UInt32
  diskType : ElementType
  memoryType : ElementType
deriving DecidableEq, Repr

namespace Declaration

def diskSize (d : Declaration) : Nat := d.diskType.size * d.length.toNat

def placeAt (d : Declaration) (offset : Nat) : Field :=
  ⟨d.name, .stored d.diskType offset, d.memoryType, d.length⟩

/-- The offset of each field when they lie one after the other, the first at `offset`. -/
def place (offset : Nat) : List Declaration → List (Declaration × Nat)
  | [] => []
  | d :: ds => (d, offset) :: place (offset + d.diskSize) ds

@[simp] theorem place_nil (offset : Nat) : place offset [] = [] := rfl

@[simp] theorem place_cons (offset : Nat) (d : Declaration) (ds : List Declaration) :
    place offset (d :: ds) = (d, offset) :: place (offset + d.diskSize) ds := rfl

@[simp] theorem map_fst_place (offset : Nat) (ds : List Declaration) :
    (place offset ds).map Prod.fst = ds := by
  induction ds generalizing offset with
  | nil => rfl
  | cons d ds ih => simp [ih]

@[simp] theorem length_place (offset : Nat) (ds : List Declaration) :
    (place offset ds).length = ds.length := by
  induction ds generalizing offset with
  | nil => rfl
  | cons d ds ih => simp [ih]

@[simp] theorem diskSize_placeAt (d : Declaration) (offset : Nat) :
    (d.placeAt offset).diskSize = d.diskSize := rfl

end Declaration

/-- The names that every table holds before any is declared. -/
def reservedNames : List String := [Field.identifier.name, Field.position.name, Field.grid.name]

@[ext]
structure FieldTable where
  declared : List Declaration
  names_nodup : (reservedNames ++ declared.map (·.name)).Nodup
  length_ne_zero : ∀ d ∈ declared, d.length ≠ 0

namespace FieldTable

def empty : FieldTable := ⟨[], by decide, by simp⟩

def names (t : FieldTable) : List String := reservedNames ++ t.declared.map (·.name)

/-- A new last field, unless its name is taken or it has no elements. -/
def declare (t : FieldTable) (d : Declaration) : Except HeaderFault FieldTable :=
  if taken : d.name ∈ t.names then .error (.duplicateName d.name)
  else if vacant : d.length = 0 then .error (.noElements d.name)
  else .ok
    { declared := t.declared ++ [d]
      names_nodup := by
        rw [List.map_append, ← List.append_assoc]
        refine List.nodup_append.2 ⟨t.names_nodup, by simp, ?_⟩
        intro a ha b hb hab
        obtain rfl : b = d.name := by simpa using hb
        exact taken (hab ▸ ha)
      length_ne_zero := by
        intro e he
        rcases List.mem_append.1 he with he | he
        · exact t.length_ne_zero e he
        · obtain rfl : e = d := by simpa using he
          exact vacant }

/-- The declared fields with their offsets in a row; the coordinate lies before them. -/
def placed (t : FieldTable) : List (Declaration × Nat) :=
  Declaration.place Field.grid.diskSize t.declared

/-- The fields of a row, in the order in which they lie there. -/
def stored (t : FieldTable) : List Field :=
  Field.grid :: t.placed.map fun (d, offset) => d.placeAt offset

/-- All fields: the identifier, the position, then the stored ones. -/
def fields (t : FieldTable) : List Field := Field.identifier :: Field.position :: t.stored

/-- The bytes of a row. -/
def rowLength (t : FieldTable) : Nat := (t.stored.map Field.diskSize).sum

def size (t : FieldTable) : Nat := t.fields.length

def get? (t : FieldTable) (name : String) : Option Field := t.fields.find? (·.name == name)

@[simp] theorem size_eq (t : FieldTable) : t.size = t.declared.length + 3 := by
  simp [size, fields, stored, placed]

/-- A row holds the three words of the coordinate and then the declared fields. -/
theorem rowLength_eq (t : FieldTable) :
    t.rowLength = 12 + (t.declared.map Declaration.diskSize).sum := by
  have h : t.declared.map Declaration.diskSize =
      t.placed.map (fun p => (p.1.placeAt p.2).diskSize) := by
    rw [← Declaration.map_fst_place Field.grid.diskSize t.declared, List.map_map]
    simp [placed, Function.comp_def]
  simp only [rowLength, stored, List.map_cons, List.sum_cons, List.map_map, h]
  rfl

theorem rowLength_pos (t : FieldTable) : 0 < t.rowLength := by
  rw [rowLength_eq]
  omega

end FieldTable

end LatticeSeries
