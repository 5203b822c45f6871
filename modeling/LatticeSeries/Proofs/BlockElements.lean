import LatticeSeries.Proofs.CheckedBlock
import LatticeSeries.Proofs.RoundTrip

/-!
# Where the elements of a block go

A block holds its elements site by site, and in a site field by field; a record
holds them field by field, and in a field site by site. Every element of the
block has its place in the record, found from the site, the field and the number
of the element alone, for every mix of element types in the rows.
-/
namespace LatticeSeries

-- Sums of sizes are those of core.
attribute [local instance (2000)] Zero.ofOfNat0

namespace Scalar

/-- The element that begins at this place of the bytes. -/
def readAt (type : ElementType) (bytes : Bytes) (start : Nat) : Scalar :=
  decode type ((bytes.drop start).take type.size)

theorem readAt_drop (type : ElementType) (bytes : Bytes) (offset start : Nat) :
    readAt type (bytes.drop offset) start = readAt type bytes (offset + start) := by
  rw [readAt, List.drop_drop]
  rfl

theorem readAt_take {type : ElementType} {bytes : Bytes} {width start : Nat}
    (h : start + type.size ≤ width) :
    readAt type (bytes.take width) start = readAt type bytes start := by
  rw [readAt, List.drop_take, List.take_take, Nat.min_eq_left (by omega)]
  rfl

theorem decodeMany_eq_map_pieces (type : ElementType) (count : Nat) (bytes : Bytes) :
    decodeMany type count bytes = (pieces type.size count bytes).map (decode type) := by
  induction count generalizing bytes with
  | zero => rfl
  | succ count ih => rw [decodeMany, ih, pieces, List.map_cons]

theorem getElem?_decodeMany {type : ElementType} {count : Nat} {bytes : Bytes} {i : Nat}
    (hi : i < count) :
    (decodeMany type count bytes)[i]? = some (readAt type bytes (i * type.size)) := by
  rw [decodeMany_eq_map_pieces, List.getElem?_map, getElem?_pieces hi]
  rfl

/-- A number as a field of this type in memory keeps it. -/
def kept (type : ElementType) (x : Double) : Scalar :=
  match type with
  | .f32 => f32 x.convert
  | _ => f64 x

end Scalar

theorem Values.scalars_ofDoubles (type : ElementType) (elements : List Double) :
    (ofDoubles type elements).scalars = elements.map (Scalar.kept type) := by
  cases type with
  | f32 => simp [ofDoubles, scalars, Scalar.kept]
  | _ => simp [ofDoubles, scalars, Scalar.kept]

/-- The value of a stored number of declared field `index`: a baseline is added
exactly if the list of baselines reaches as far as the field. -/
def ValueCoding.applied (coding : ValueCoding) (index : Nat) (x : Double) : Double :=
  match coding with
  | absolute => x
  | relative baselines => if h : index + 1 < baselines.length then x + baselines[index + 1] else x

theorem ValueCoding.physical_baseline? (coding : ValueCoding) (index : Nat) (s : Scalar) :
    physical (coding.baseline? index) s = coding.applied index s.toDouble := by
  cases coding with
  | absolute => rfl
  | relative baselines =>
    simp only [baseline?, applied]
    split_ifs with h
    · rw [List.getElem?_eq_getElem h]
      rfl
    · rw [List.getElem?_eq_none (Nat.le_of_not_lt h)]
      rfl

namespace Grid

/-- The coordinate that begins at this place of the bytes. -/
def readAt (bytes : Bytes) (start : Nat) : Grid :=
  ⟨u32OfBytes ((bytes.drop start).take 4), u32OfBytes ((bytes.drop (start + 4)).take 4),
    u32OfBytes ((bytes.drop (start + 8)).take 4)⟩

theorem decode_take_drop {bytes : Bytes} {width start : Nat} (h : Field.grid.diskSize ≤ width) :
    decode ((bytes.drop start).take width) = readAt bytes start := by
  have h : 12 ≤ width := h
  simp only [decode, readAt, List.drop_take, List.take_take, List.drop_drop]
  rw [Nat.min_eq_left (by omega), Nat.min_eq_left (by omega), Nat.min_eq_left (by omega)]

end Grid

/-- Element `e` of site `s` stands behind the elements of the sites before it. -/
theorem Column.getElem?_scalars_ofRows {d : Declaration} {offset : Nat} {baseline? : Option Double}
    {rows : List Bytes} {row : Bytes} {s e : Nat} (hrow : rows[s]? = some row)
    (he : e < d.length.toNat) :
    (ofRows d offset baseline? rows).data.scalars[s * d.length.toNat + e]? =
      some (.kept d.memoryType (ValueCoding.physical baseline?
        (Scalar.readAt d.diskType row (offset + e * d.diskType.size)))) := by
  rw [ofRows, Values.scalars_ofDoubles, List.getElem?_map,
    getElem?_flatMap_mul_add (by simp) hrow he]
  simp only [List.getElem?_map, Scalar.getElem?_decodeMany he, Option.map_some, Scalar.readAt_drop]

theorem Values.type_ofDoubles_eq (type : ElementType) (elements : List Double) :
    (ofDoubles type elements).type = if type = .f32 then .f32 else .f64 := by
  cases type <;> rfl

/-- The column of declared field `i`, which begins at the offset in every row of the block.
Element `e` of a site is the stored element of this number in the row of the site, with
the baseline of the field added if there is one, in the precision of the field in memory. -/
structure Column.ReadFrom (coding : ValueCoding) (table : FieldTable) (siteCount : Nat)
    (block : Bytes) (i : Nat) (d : Declaration) (offset : Nat) (c : Column) : Prop where
  name : c.name = d.name
  length : c.length = d.length.toNat
  type : c.data.type = if d.memoryType = .f32 then .f32 else .f64
  size : c.data.size = siteCount * d.length.toNat
  element : ∀ s < siteCount, ∀ e < d.length.toNat,
    c.data.scalars[s * d.length.toNat + e]? =
      some (.kept d.memoryType (coding.applied i (Scalar.readAt d.diskType block
        (s * table.rowLength + offset + e * d.diskType.size)).toDouble))

namespace Record

variable {coding : ValueCoding} {table : FieldTable} {header : Header} {timeStep : UInt64}
  {block : Bytes}

theorem getElem?_places_ofRows (rows : List Bytes) (s : Nat) :
    (ofRows coding table header timeStep rows).places[s]? = rows[s]?.map fun row =>
      ⟨Grid.decode row, header.positionOf (Grid.decode row)⟩ := by
  rw [ofRows, List.getElem?_toArray, List.getElem?_map]

theorem getElem?_columns_ofRows {rows : List Bytes} {i offset : Nat} {d : Declaration}
    (h : table.placed[i]? = some (d, offset)) :
    (ofRows coding table header timeStep rows).columns[i]? =
      some (Column.ofRows d offset (coding.baseline? i) rows) := by
  rw [ofRows, List.getElem?_map, List.getElem?_zipIdx, h, Option.map_some, Option.map_some,
    Nat.zero_add]

theorem ofBlock_eq_error_iff {e : Error} :
    ofBlock coding table header timeStep block = .error e ↔
      block.length ≠ table.rowLength * header.siteCount.toNat ∧
        e = .truncated .timeStepBlock (table.rowLength * header.siteCount.toNat) block.length := by
  unfold ofBlock
  dsimp only
  split_ifs with hlength
  · simp [hlength]
  · simp [hlength, eq_comm]

theorem exists_column {i : Nat} {d : Declaration} (hd : table.declared[i]? = some d) :
    ∃ c, (ofRows coding table header timeStep
        (pieces table.rowLength header.siteCount.toNat block)).columns[i]? = some c ∧
      c.ReadFrom coding table header.siteCount.toNat block i d
        (12 + ((table.declared.take i).map Declaration.diskSize).sum) := by
  have hplaced : table.placed[i]? =
      some (d, 12 + ((table.declared.take i).map Declaration.diskSize).sum) := by
    rw [FieldTable.placed, Declaration.getElem?_place, hd]
    rfl
  have hfits : 12 + ((table.declared.take i).map Declaration.diskSize).sum + d.diskSize ≤
      table.rowLength := table.placed_le_rowLength (List.mem_of_getElem? hplaced)
  refine ⟨_, getElem?_columns_ofRows hplaced, rfl, rfl, Values.type_ofDoubles_eq _ _, ?_, ?_⟩
  · rw [Column.size_data_ofRows, length_pieces]
  · intro s hs e he
    have hlast : (e + 1) * d.diskType.size ≤ d.length.toNat * d.diskType.size :=
      Nat.mul_le_mul_right _ he
    rw [Nat.succ_mul, Nat.mul_comm d.length.toNat] at hlast
    change _ ≤ d.diskSize at hlast
    rw [Column.getElem?_scalars_ofRows (getElem?_pieces hs) he, ValueCoding.physical_baseline?,
      Scalar.readAt_take (by omega), Scalar.readAt_drop, Nat.add_assoc (s * table.rowLength)]

/-- The record has one place for each site of the block and one column for each declared
field, which begins in every row where the fields before it end. -/
structure Transposes (coding : ValueCoding) (table : FieldTable) (header : Header)
    (timeStep : UInt64) (block : Bytes) (r : Record) : Prop where
  timeStep_eq : r.timeStep = timeStep
  size_eq : r.size = header.siteCount.toNat
  ids : r.ids.map UInt64.toNat = List.range header.siteCount.toNat
  place : ∀ s < header.siteCount.toNat, r.places[s]? =
    some ⟨Grid.readAt block (s * table.rowLength),
      header.positionOf (Grid.readAt block (s * table.rowLength))⟩
  length_columns : r.columns.length = table.declared.length
  column : ∀ i d, table.declared[i]? = some d → ∃ offset c,
    offset = 12 + ((table.declared.take i).map Declaration.diskSize).sum ∧
    table.stored[i + 1]? = some (d.placeAt offset) ∧ r.columns[i]? = some c ∧
    c.ReadFrom coding table header.siteCount.toNat block i d offset

theorem transposes_ofRows :
    Transposes coding table header timeStep block (ofRows coding table header timeStep
      (pieces table.rowLength header.siteCount.toNat block)) := by
  have hsize : (ofRows coding table header timeStep
      (pieces table.rowLength header.siteCount.toNat block)).size = header.siteCount.toNat := by
    simp [ofRows, size]
  have hids := map_toNat_ids (hsize ▸ header.siteCount.toNat_lt)
  refine ⟨rfl, hsize, hids.trans (congrArg List.range hsize), ?_, ?_, ?_⟩
  · intro s hs
    rw [getElem?_places_ofRows, getElem?_pieces hs, Option.map_some,
      Grid.decode_take_drop table.grid_le_rowLength]
  · simp [ofRows, FieldTable.placed]
  · intro i d hd
    obtain ⟨c, hcolumn, hread⟩ := exists_column hd
    refine ⟨_, c, rfl, ?_, hcolumn, hread⟩
    rw [FieldTable.stored, List.getElem?_cons_succ, List.getElem?_map, FieldTable.placed,
      Declaration.getElem?_place, hd]
    rfl

/-- What becomes of a block. A block of the wrong length is refused with both lengths, and
every other one gives the record of its rows. Filling the columns row by row, with checked
operations, gives the same and faults nowhere, in a process that has twice the room of the
block. -/
structure Decodes (coding : ValueCoding) (table : FieldTable) (header : Header)
    (timeStep : UInt64) (block : Bytes) : Prop where
  filled : table.rowLength < UInt64.size →
    table.rowLength * header.siteCount.toNat < UInt64.size →
    ∀ room, 2 * block.length ≤ room → room < UInt64.size →
      Checked.fillBlock room coding table header timeStep block =
        .ok (ofBlock coding table header timeStep block)
  refused : ∀ e, ofBlock coding table header timeStep block = .error e ↔
    block.length ≠ table.rowLength * header.siteCount.toNat ∧
      e = .truncated .timeStepBlock (table.rowLength * header.siteCount.toNat) block.length
  decoded : block.length = table.rowLength * header.siteCount.toNat →
    ∃ r, ofBlock coding table header timeStep block = .ok r ∧
      Transposes coding table header timeStep block r

/-- Decoding a block puts every element in its place. -/
theorem ofBlock_exact (coding : ValueCoding) (table : FieldTable) (header : Header)
    (timeStep : UInt64) (block : Bytes) : Decodes coding table header timeStep block where
  filled hwidth hexpected room hroom hword := by
    have hblock : block.length ≤ room := by omega
    exact Checked.fillBlock_eq_ok hwidth hexpected hblock
      (fun hlength _ => Checked.allocateColumn_of_mem hroom hword hlength) coding timeStep
  refused _ := ofBlock_eq_error_iff
  decoded hlength := ⟨_, if_pos hlength, transposes_ofRows⟩

/-- A field that is widened in memory, and one that is narrowed. -/
def mixedTable : FieldTable :=
  ⟨[⟨"shear", 2, .f32, .f64⟩, ⟨"age", 1, .u64, .f32⟩], by decide, by decide⟩

def mixedRow (n : Nat) : Row :=
  ⟨⟨0, 0, 0⟩, [[.f32 (.ofNat n), .f32 (.ofNat (n + 1))], [.u64 (.ofNat n)]]⟩

/-- The list of baselines ends before the second field. -/
theorem ofBlock_exact_sample :
    let coding : ValueCoding := .relative [.zero, .ofNat 1000]
    let header := (Recording.sample .four).header
    let block := [mixedRow 3, mixedRow 8].flatMap Row.encode
    Checked.fillBlock 112 coding mixedTable header 7 block =
      .ok (ofBlock coding mixedTable header 7 block) ∧
    ∃ r, ofBlock coding mixedTable header 7 block = .ok r ∧
      (∃ c, r.columns[0]? = some c ∧ c.data.scalars[3]? = some (.f64 (.ofNat 1009))) ∧
      ∃ c, r.columns[1]? = some c ∧ c.data.scalars[1]? = some (.f32 (.ofNat 8)) := by
  intro coding header block
  have hdecodes := ofBlock_exact coding mixedTable header 7 block
  obtain ⟨r, hr, htransposes⟩ := hdecodes.decoded (by decide +kernel)
  refine ⟨hdecodes.filled (by decide +kernel) (by decide +kernel) 112 (by decide +kernel)
    (by decide +kernel), r, hr, ?_, ?_⟩
  · obtain ⟨offset, c, rfl, -, hc, hread⟩ := htransposes.column 0 _ rfl
    refine ⟨c, hc, (hread.element 1 (by decide) 1 (by decide)).trans ?_⟩
    decide +kernel
  · obtain ⟨offset, c, rfl, -, hc, hread⟩ := htransposes.column 1 _ rfl
    refine ⟨c, hc, (hread.element 1 (by decide) 0 (by decide)).trans ?_⟩
    decide +kernel

end Record

end LatticeSeries
