import LatticeSeries.Header

/-!
# Decoded time steps

A record holds all sites of one time step by columns: one for each declared
field, with the elements of a site next to each other and the sites in order.
Every column holds exactly the elements of the record's sites, so a site is a
view of the record that cuts its own elements out of every column.
-/
namespace LatticeSeries

/-- A run of elements, all of one precision. -/
inductive Values where
  | single (elements : Array Single)
  | double (elements : Array Double)
deriving DecidableEq

namespace Values

def size : Values → Nat
  | single elements => elements.size
  | double elements => elements.size

def isEmpty (v : Values) : Bool := v.size = 0

def get? : Values → Nat → Option Double
  | single elements, i => elements[i]?.map (·.convert)
  | double elements, i => elements[i]?

def toDoubles : Values → List Double
  | single elements => elements.toList.map (·.convert)
  | double elements => elements.toList

/-- The elements from `start` up to `stop`, as far as they exist. -/
def extract : Values → (start stop : Nat) → Values
  | single elements, start, stop => single (elements.extract start stop)
  | double elements, start, stop => double (elements.extract start stop)

/-- Equality of precision, number and values of the elements. -/
def sameValue : Values → Values → Bool
  | single a, single b => a.isEqv b Ieee.Number.sameValue
  | double a, double b => a.isEqv b Ieee.Number.sameValue
  | _, _ => false

theorem length_toDoubles (v : Values) : v.toDoubles.length = v.size := by
  cases v <;> simp [toDoubles, size]

theorem getElem?_toDoubles (v : Values) (i : Nat) : v.toDoubles[i]? = v.get? i := by
  cases v <;> simp [toDoubles, get?]

end Values

/-- The values of one field, site by site. -/
structure Column where
  name : String
  /-- Elements in a site. -/
  length : Nat
  data : Values
deriving DecidableEq

namespace Column

/-- The elements of a site, cut off at the end of the data. -/
def slice (c : Column) (site : Nat) : Values :=
  c.data.extract (site * c.length) (site * c.length + c.length)

/-- The elements of a site, if the data hold all of them. -/
def slice? (c : Column) (site : Nat) : Option Values :=
  if site * c.length + c.length ≤ c.data.size then some (c.slice site) else none

/-- Where the elements for a number begin. The product is a word of 64 bits, and what
goes beyond the word is lost. -/
def cutStart (c : Column) (site : Nat) : Nat := site * c.length % UInt64.size

/-- The bounds of the elements for a number, unless they run backwards or past the end
of the data. -/
def cut? (c : Column) (site : Nat) : Option (Nat × Nat) :=
  let start := c.cutStart site
  let stop := (start + c.length) % UInt64.size
  if start ≤ stop ∧ stop ≤ c.data.size then some (start, stop) else none

/-- The elements for any number. They are those of the site with this number as long as
the bounds of the cut fit into words. -/
def valuesAt? (c : Column) (site : Nat) : Option Values :=
  (c.cut? site).map fun (start, stop) => c.data.extract start stop

def sameValue (c d : Column) : Bool :=
  c.name == d.name && c.length == d.length && c.data.sameValue d.data

end Column

structure Place where
  grid : Grid
  position : Triple Single
deriving DecidableEq

namespace Place

def sameValue (p q : Place) : Bool :=
  p.grid == q.grid && p.position.toList.isEqv q.position.toList Ieee.Number.sameValue

end Place

/-- All sites of one time step. -/
@[ext]
structure Record where
  timeStep : UInt64
  /-- The places of the sites, by identifier. -/
  places : Array Place
  /-- The declared fields, in the order of their declaration. -/
  columns : List Column
  size_data : ∀ c ∈ columns, c.data.size = places.size * c.length

namespace Record

def size (r : Record) : Nat := r.places.size

def isEmpty (r : Record) : Bool := r.size = 0

/-- The identifiers of the sites count from zero. -/
def ids (r : Record) : List UInt64 := (List.range r.size).map UInt64.ofNat

/-- A column reaches as far as the last element of every site. -/
theorem le_size_data (r : Record) {c : Column} (hc : c ∈ r.columns) {site : Nat}
    (hsite : site < r.size) : site * c.length + c.length ≤ c.data.size := by
  rw [r.size_data c hc, ← Nat.succ_mul]
  exact Nat.mul_le_mul_right c.length hsite

def column? (r : Record) (name : String) : Option Column :=
  r.columns.find? (·.name == name)

/-- Equality of all parts, floating-point numbers by value. -/
def sameValue (r s : Record) : Bool :=
  r.timeStep == s.timeStep && r.places.isEqv s.places Place.sameValue &&
    r.columns.isEqv s.columns Column.sameValue

end Record

structure Site where
  record : Record
  index : Fin record.size

namespace Site

def id (s : Site) : UInt64 := UInt64.ofNat s.index

def place (s : Site) : Place :=
  have inside : s.index < s.record.places.size := s.index.isLt
  s.record.places[s.index]

def value? (s : Site) (name : String) : Option Values :=
  (s.record.column? name).map (·.slice s.index)

/-- The elements of every declared field, in the order of their declaration. -/
def values (s : Site) : List (String × Values) :=
  s.record.columns.map fun c => (c.name, c.slice s.index)

end Site

namespace Record

def site? (r : Record) (index : Nat) : Option Site :=
  if h : index < r.size then some ⟨r, ⟨index, h⟩⟩ else none

def sites (r : Record) : List Site := List.ofFn fun i => ⟨r, i⟩

theorem isSome_site?_iff (r : Record) (index : Nat) :
    (r.site? index).isSome ↔ index < r.size := by
  unfold site?
  split <;> simp_all

end Record

end LatticeSeries
