import LatticeSeries.Proofs.FieldHeaderCodec
import LatticeSeries.Proofs.RowCodec

/-!
# Decoding rows

The record of some rows is what the time step with these rows decodes to: each
column holds the elements of its field over all rows, in their order, and each
element is converted on its own. The other way round, the elements of a site can
be found in the columns, and values that are stored as they are come back as
they were.
-/
namespace LatticeSeries

-- Sums of sizes are those of core.
attribute [local instance (2000)] Zero.ofOfNat0

@[simp] theorem ValueCoding.physical_none : ValueCoding.physical none = Scalar.toDouble := rfl

@[simp] theorem ValueCoding.physical_some (baseline : Double) :
    ValueCoding.physical (some baseline) = fun x => x.toDouble + baseline := rfl

namespace Column

theorem ofRows_declaration {version : Version} {e : FieldEntry} (he : e.Storable version)
    (offset : Nat) (rows : List Bytes) :
    ofRows (e.declaration version) offset e.baseline? rows =
      e.column (rows.map fun row => Scalar.decodeMany (e.declaration version).diskType
        e.length.toNat (row.drop offset)) := by
  have hbaseline := he.baseline
  rcases e with ⟨name, length, baseline?⟩
  cases version with
  | three =>
    cases baseline? with
    | none =>
      simp [ofRows, FieldEntry.column, FieldEntry.declaration, Values.ofDoubles,
        List.flatMap_def, List.map_flatten, Function.comp_def]
    | some baseline => simp at hbaseline
  | four =>
    cases baseline? with
    | none => simp at hbaseline
    | some baseline =>
      simp [ofRows, FieldEntry.column, FieldEntry.declaration, Values.ofDoubles,
        List.flatMap_def, List.map_flatten, Function.comp_def]

end Column

namespace FieldHeader.MadeOf

variable {fields : FieldHeader} {version : Version} {es : List FieldEntry}

theorem getElem?_placed (h : fields.MadeOf version es) {index : Nat} {e : FieldEntry}
    (he : es[index]? = some e) :
    ∃ offset, fields.table.placed[index]? = some (e.declaration version, offset) := by
  have hfst : (fields.table.placed.map Prod.fst)[index]? = some (e.declaration version) := by
    rw [FieldTable.placed, Declaration.map_fst_place, h.declared, List.getElem?_map, he]
    rfl
  rw [List.getElem?_map] at hfst
  obtain ⟨⟨d, offset⟩, hplaced, hd⟩ := Option.map_eq_some_iff.mp hfst
  obtain rfl : d = e.declaration version := hd
  exact ⟨offset, hplaced⟩

theorem length_placed (h : fields.MadeOf version es) :
    fields.table.placed.length = es.length := by
  rw [FieldTable.placed, Declaration.length_place, h.declared, List.length_map]

theorem baseline?_eq (h : fields.MadeOf version es) {index : Nat} {e : FieldEntry}
    (he : es[index]? = some e) : fields.coding.baseline? index = e.baseline? := by
  rw [h.coding, ValueCoding.baseline?_ofEntries h.storable, he]
  rfl

/-- What rows of bytes decode to is what their stored elements decode to. -/
theorem decodesTo_ofRows (h : fields.MadeOf version es) (header : Header) (timeStep : UInt64)
    (rows : List Bytes) :
    Frame.DecodesTo header es ⟨timeStep, rows.map (Row.decode fields.table)⟩
      (Record.ofRows fields.coding fields.table header timeStep rows) := by
  refine ⟨rfl, ?_, ?_⟩
  · simp [Record.ofRows, Row.decode]
  · apply List.ext_getElem?
    intro index
    rw [Record.ofRows, List.getElem?_map, List.getElem?_map, List.getElem?_zipIdx,
      List.getElem?_zipIdx, Nat.zero_add]
    cases he : es[index]? with
    | none =>
      have hle : fields.table.placed.length ≤ index := by
        rw [h.length_placed]
        exact List.getElem?_eq_none_iff.mp he
      rw [List.getElem?_eq_none hle]
      rfl
    | some e =>
      obtain ⟨offset, hplaced⟩ := h.getElem?_placed he
      have hcell : ∀ row : Bytes, ((Row.decode fields.table row).cells[index]?).getD [] =
          Scalar.decodeMany (e.declaration version).diskType e.length.toNat (row.drop offset) := by
        intro row
        rw [Row.getElem?_cells_decode, hplaced]
        simp
      rw [hplaced]
      simp only [Option.map_some, h.baseline?_eq he,
        Column.ofRows_declaration (h.storable e (List.mem_of_getElem? he)), List.map_map,
        Function.comp_def, hcell]

end FieldHeader.MadeOf

/-- Identifiers do not wrap as long as a word counts the sites. -/
theorem Record.map_toNat_ids {r : Record} (h : r.size < UInt64.size) :
    r.ids.map UInt64.toNat = List.range r.size := by
  have hword : ∀ i ∈ List.range r.size, (UInt64.toNat ∘ UInt64.ofNat) i = id i := by
    intro i hi
    have hlt : i < UInt64.size := Nat.lt_trans (List.mem_range.mp hi) h
    exact UInt64.toNat_ofNat_of_lt' hlt
  rw [ids, List.map_map, List.map_congr_left hword, List.map_id]

theorem Scalar.exists_eq_f64 {x : Scalar} (h : x.type = .f64) : ∃ value, x = .f64 value := by
  cases x with
  | f64 value => exact ⟨value, rfl⟩
  | u32 value => cases h
  | u64 value => cases h
  | f32 value => cases h

theorem Scalar.exists_eq_f32 {x : Scalar} (h : x.type = .f32) : ∃ value, x = .f32 value := by
  cases x with
  | f32 value => exact ⟨value, rfl⟩
  | u32 value => cases h
  | u64 value => cases h
  | f64 value => cases h

namespace FieldEntry

theorem scalars_column_of_none {e : FieldEntry} (h : e.baseline? = none)
    (cells : List (List Scalar)) :
    (e.column cells).data.scalars = cells.flatten.map fun x => .f64 x.toDouble := by
  simp [column, h, Values.scalars, Function.comp_def]

theorem scalars_column_of_some {e : FieldEntry} {baseline : Double}
    (h : e.baseline? = some baseline) (cells : List (List Scalar)) :
    (e.column cells).data.scalars =
      cells.flatten.map fun x => .f32 (x.toDouble + baseline).convert := by
  simp [column, h, Values.scalars, Function.comp_def]

/-- An element of a column is what the stored element in its place reads as. -/
theorem exists_getElem?_scalars_column {version : Version} {e : FieldEntry}
    (he : e.Storable version) {cells : List (List Scalar)}
    (hcells : ∀ cell ∈ cells, cell.length = e.length.toNat ∧
      ∀ x ∈ cell, x.type = (e.declaration version).diskType)
    {site k : Nat} {cell : List Scalar} {x : Scalar} (hcell : cells[site]? = some cell)
    (hx : cell[k]? = some x) :
    ∃ y, (e.column cells).data.scalars[site * e.length.toNat + k]? = some y ∧
      x.ReadsAs e.baseline? y := by
  obtain ⟨hlength, htype⟩ := hcells cell (List.mem_of_getElem? hcell)
  have hk : k < e.length.toNat := hlength ▸ (List.getElem?_eq_some_iff.mp hx).1
  have hstored : cells.flatten[site * e.length.toNat + k]? = some x := by
    rw [← List.flatMap_id', getElem?_flatMap_mul_add (fun cell h => (hcells cell h).1) hcell hk, hx]
  have hxtype := htype x (List.mem_of_getElem? hx)
  have hbaseline := he.baseline
  cases version with
  | three =>
    have hnone : e.baseline? = none := by simpa using hbaseline
    obtain ⟨value, rfl⟩ := Scalar.exists_eq_f64 hxtype
    rw [scalars_column_of_none hnone, List.getElem?_map, hstored, hnone]
    exact ⟨_, rfl, .kept value⟩
  | four =>
    obtain ⟨baseline, hsome⟩ := Option.isSome_iff_exists.mp (hbaseline.mpr rfl)
    obtain ⟨value, rfl⟩ := Scalar.exists_eq_f32 hxtype
    rw [scalars_column_of_some hsome, List.getElem?_map, hstored, hsome]
    exact ⟨_, rfl, .shifted baseline value⟩

/-- A site of a column holds the elements that the row of the site stored. -/
theorem scalars_slice_column {e : FieldEntry} (he : e.Storable .three)
    {cells : List (List Scalar)}
    (hcells : ∀ cell ∈ cells, cell.length = e.length.toNat ∧ ∀ x ∈ cell, x.type = .f64)
    {site : Nat} {cell : List Scalar} (hcell : cells[site]? = some cell) :
    ((e.column cells).slice site).scalars = cell := by
  have hnone : e.baseline? = none := by simpa using he.baseline
  have hlength : ∀ cell ∈ cells, cell.length = e.length.toNat := fun cell h => (hcells cell h).1
  have helement : ∀ x ∈ cell, Scalar.f64 x.toDouble = id x := by
    intro x hx
    obtain ⟨value, rfl⟩ := Scalar.exists_eq_f64 ((hcells cell (List.mem_of_getElem? hcell)).2 x hx)
    rfl
  rw [Column.scalars_slice, scalars_column_of_none hnone, ← List.map_drop, ← List.map_take]
  change ((cells.flatten.drop (site * e.length.toNat)).take e.length.toNat).map _ = _
  rw [take_drop_flatten hlength hcell, List.map_congr_left helement, List.map_id]

end FieldEntry

theorem Site.cells_row (s : Site) :
    s.row.cells = s.record.columns.map fun c => (c.slice s.index).scalars := by
  rw [Site.row, Site.values, List.map_map]
  rfl

namespace Frame.DecodesTo

variable {header : Header} {entries : List FieldEntry} {f : Frame} {r : Record}

theorem size_eq (h : f.DecodesTo header entries r) : r.size = f.rows.length := by
  have hlength := congrArg List.length h.places
  rwa [List.length_map, Array.length_toList] at hlength

theorem grids_eq (h : f.DecodesTo header entries r) :
    f.rows.map (·.grid) = r.places.toList.map (·.grid) := by
  rw [h.places, List.map_map]
  rfl

theorem getElem?_columns (h : f.DecodesTo header entries r) (index : Nat) :
    r.columns[index]? = entries[index]?.map fun e =>
      e.column (f.rows.map fun row => (row.cells[index]?).getD []) := by
  rw [h.columns, List.getElem?_map, List.getElem?_zipIdx, Option.map_map]
  simp only [Function.comp_def, Nat.zero_add]

theorem map_columns (h : f.DecodesTo header entries r) :
    r.columns.map (fun c => (c.name, c.length)) =
      entries.map fun e => (e.name, e.length.toNat) := by
  apply List.ext_getElem?
  intro index
  rw [List.getElem?_map, h.getElem?_columns, Option.map_map, List.getElem?_map]
  rfl

theorem getElem?_cells {i index : Nat} {row : Row} {cell : List Scalar}
    (hrow : f.rows[i]? = some row) (hcell : row.cells[index]? = some cell) :
    (f.rows.map fun row => (row.cells[index]?).getD [])[i]? = some cell := by
  rw [List.getElem?_map, hrow, Option.map_some, hcell, Option.getD_some]

section Fit

variable {version : Version} (hstorable : ∀ e ∈ entries, e.Storable version)
  (hfit : ∀ row ∈ f.rows, Row.CellsFit (entries.map (·.declaration version)) row.cells)

include hfit in
theorem exists_cell {index : Nat} {e : FieldEntry} (he : entries[index]? = some e) {row : Row}
    (hrow : row ∈ f.rows) :
    ∃ cell, row.cells[index]? = some cell ∧ cell.length = e.length.toNat ∧
      ∀ x ∈ cell, x.type = (e.declaration version).diskType := by
  have hd : (entries.map (·.declaration version))[index]? = some (e.declaration version) := by
    rw [List.getElem?_map, he]
    rfl
  obtain ⟨cell, hget, hlength, htype⟩ := (hfit row hrow).exists_getElem? hd
  rw [FieldEntry.length_declaration] at hlength
  exact ⟨cell, hget, hlength, htype⟩

include hfit in
theorem shape_cells {index : Nat} {e : FieldEntry} (he : entries[index]? = some e) :
    ∀ cell ∈ f.rows.map fun row => (row.cells[index]?).getD [],
      cell.length = e.length.toNat ∧ ∀ x ∈ cell, x.type = (e.declaration version).diskType := by
  intro cell hmem
  obtain ⟨row, hrow, rfl⟩ := List.mem_map.mp hmem
  obtain ⟨cell, hget, hshape⟩ := exists_cell hfit he hrow
  rw [hget]
  exact hshape

include hstorable hfit in
/-- Every stored element has its own place in the column of its field. -/
theorem exists_element (h : f.DecodesTo header entries r) {index site k : Nat} {e : FieldEntry}
    {row : Row} {cell : List Scalar} {x : Scalar} (he : entries[index]? = some e)
    (hrow : f.rows[site]? = some row) (hcell : row.cells[index]? = some cell)
    (hx : cell[k]? = some x) :
    ∃ c y, r.columns[index]? = some c ∧
      c.data.scalars[site * e.length.toNat + k]? = some y ∧ x.ReadsAs e.baseline? y := by
  obtain ⟨y, hy, hreads⟩ := FieldEntry.exists_getElem?_scalars_column
    (hstorable e (List.mem_of_getElem? he)) (shape_cells hfit he) (getElem?_cells hrow hcell) hx
  refine ⟨_, y, ?_, hy, hreads⟩
  rw [h.getElem?_columns, he]
  rfl

end Fit

variable (hstorable : ∀ e ∈ entries, e.Storable .three)
  (hfit : ∀ row ∈ f.rows, Row.CellsFit (entries.map (·.declaration .three)) row.cells)

include hstorable hfit in
/-- Site by site and field by field, the row is found in the columns. -/
theorem row_eq (h : f.DecodesTo header entries r) {i : Nat} (hi : i < r.size) {row : Row}
    (hrow : f.rows[i]? = some row) : Site.row ⟨r, ⟨i, hi⟩⟩ = row := by
  have hplace : r.places[i] = ⟨row.grid, header.positionOf row.grid⟩ := by
    apply Option.some.inj
    rw [← Array.getElem?_eq_getElem hi, ← Array.getElem?_toList, h.places, List.getElem?_map, hrow]
    rfl
  have hcells : (r.columns.map fun c => (c.slice i).scalars) = row.cells := by
    apply List.ext_getElem?
    intro index
    rw [List.getElem?_map, h.getElem?_columns, Option.map_map]
    cases he : entries[index]? with
    | none =>
      have hlength := (hfit row (List.mem_of_getElem? hrow)).length_eq
      rw [List.length_map] at hlength
      have hle : row.cells.length ≤ index := hlength ▸ List.getElem?_eq_none_iff.mp he
      rw [List.getElem?_eq_none hle]
      rfl
    | some e =>
      obtain ⟨cell, hget, -⟩ := exists_cell hfit he (List.mem_of_getElem? hrow)
      have hslice := FieldEntry.scalars_slice_column (hstorable e (List.mem_of_getElem? he))
        (shape_cells hfit he) (getElem?_cells hrow hget)
      rw [hget, ← hslice]
      rfl
  have hgrid : (Site.row ⟨r, ⟨i, hi⟩⟩).grid = row.grid := congrArg Place.grid hplace
  exact congrArg₂ Row.mk hgrid ((Site.cells_row _).trans hcells)

include hstorable hfit in
/-- Values that are stored as they are lead back to the time step they come from. -/
theorem frame_eq (h : f.DecodesTo header entries r) : r.frame = f := by
  have hrows : r.sites.map Site.row = f.rows := by
    apply List.ext_getElem?
    intro i
    rw [List.getElem?_map, Record.sites, List.getElem?_ofFn]
    split
    · rename_i hi
      have hlt : i < f.rows.length := h.size_eq ▸ hi
      have hrow : f.rows[i]? = some f.rows[i] := List.getElem?_eq_getElem hlt
      rw [hrow, Option.map_some, h.row_eq hstorable hfit hi hrow]
    · rename_i hi
      rw [h.size_eq] at hi
      rw [List.getElem?_eq_none (Nat.le_of_not_lt hi)]
      rfl
  rw [Record.frame, hrows, h.timeStep]

end Frame.DecodesTo

end LatticeSeries
