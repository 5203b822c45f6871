import LatticeSeries.Checked
import LatticeSeries.Proofs.RowCodec
import LatticeSeries.Proofs.Stages

/-!
# Filling a block never faults

A block of one row for each site is read row by row, and every row puts its
elements behind those of the rows before it. Each checked operation has one lemma
with the bound that it needs. The columns after some rows are those that the rows
decode to, so the columns after all rows are those of the record.
-/
namespace LatticeSeries.Checked

-- Sums of sizes are those of core.
attribute [local instance (2000)] Zero.ofOfNat0

theorem add_eq_ok {a b : Nat} (h : a + b < UInt64.size) : add a b = .ok (a + b) := if_pos h

theorem mul_eq_ok {a b : Nat} (h : a * b < UInt64.size) : mul a b = .ok (a * b) := if_pos h

theorem slice_eq_ok {bytes : Bytes} {start stop : Nat} (h : start ≤ stop)
    (hstop : stop ≤ bytes.length) :
    slice bytes start stop = .ok ((bytes.drop start).take (stop - start)) :=
  if_pos ⟨h, hstop⟩

theorem split_eq_ok {width : Nat} {bytes : Bytes} (h : width ≤ bytes.length) :
    split width bytes = .ok (bytes.take width, bytes.drop width) :=
  if_pos h

theorem element_eq_ok {α : Type} {xs : List α} {i : Nat} {x : α} (h : xs[i]? = some x) :
    element xs i = .ok x := by
  rw [element, h]

theorem chunks_eq_ok {width count : Nat} {bytes : Bytes} (hwidth : 0 < width)
    (h : bytes.length = width * count) : chunks width bytes = .ok (pieces width count bytes) := by
  have hne : width ≠ 0 := Nat.ne_of_gt hwidth
  rw [chunks, if_neg hne, h, Nat.mul_div_cancel_left count hwidth]

theorem allocate_eq_ok {room count width : Nat} (h : count * width ≤ room) :
    allocate room count width = .ok () :=
  if_pos h

theorem diskSize_eq_ok {f : Field} (h : f.diskSize < UInt64.size) :
    diskSize f = .ok f.diskSize := by
  unfold Field.diskSize at h
  unfold diskSize Field.diskSize
  cases hstorage : f.storage with
  | computed => rfl
  | stored type offset =>
    rw [hstorage] at h
    exact mul_eq_ok h

/-- No partial sum wraps when the complete one does not. -/
theorem totalSize_eq_ok {total : Nat} {fs : List Field}
    (h : total + (fs.map Field.diskSize).sum < UInt64.size) :
    totalSize total fs = .ok (total + (fs.map Field.diskSize).sum) := by
  induction fs generalizing total with
  | nil => rfl
  | cons f fs ih =>
    rw [List.map_cons, List.sum_cons] at h ⊢
    have hsize : diskSize f = .ok f.diskSize := diskSize_eq_ok (by omega)
    have htotal : add total f.diskSize = .ok (total + f.diskSize) := add_eq_ok (by omega)
    have hrest : totalSize (total + f.diskSize) fs = _ := ih (by omega)
    rw [totalSize, hsize, ok_bind, htotal, ok_bind, hrest, Nat.add_assoc]

theorem rowLength_eq_ok {t : FieldTable} (h : t.rowLength < UInt64.size) :
    rowLength t = .ok t.rowLength := by
  have htotal : totalSize 0 t.stored = .ok (0 + (t.stored.map Field.diskSize).sum) :=
    totalSize_eq_ok (by rwa [Nat.zero_add])
  rw [rowLength, htotal, Nat.zero_add]
  rfl

theorem grid_eq_ok {bytes : Bytes} (h : Field.grid.diskSize ≤ bytes.length) :
    grid bytes = .ok (Grid.decode bytes) := by
  have h : 12 ≤ bytes.length := h
  have hx : split 4 bytes = _ := split_eq_ok (by omega)
  have hy : split 4 (bytes.drop 4) = _ := split_eq_ok (by rw [List.length_drop]; omega)
  have hz : split 4 ((bytes.drop 4).drop 4) = _ :=
    split_eq_ok (by rw [List.length_drop, List.length_drop]; omega)
  simp only [grid, hx, hy, hz, ok_bind]
  rw [List.drop_drop]
  rfl

/-- The bytes of a field are found, and they are as many as its elements take. -/
theorem cell_bounds {row : Bytes} {d : Declaration} {offset : Nat}
    (h : offset + d.diskSize ≤ row.length) (hlt : row.length < UInt64.size) :
    mul d.diskType.size d.length.toNat = .ok d.diskSize ∧
      add offset d.diskSize = .ok (offset + d.diskSize) ∧
      slice row offset (offset + d.diskSize) = .ok ((row.drop offset).take d.diskSize) ∧
      d.length.toNat * d.diskType.size ≤ ((row.drop offset).take d.diskSize).length := by
  refine ⟨mul_eq_ok (Nat.lt_of_le_of_lt (Nat.le_trans (Nat.le_add_left _ _) h) hlt),
    add_eq_ok (by omega), ?_, ?_⟩
  · rw [slice_eq_ok (Nat.le_add_right _ _) h, Nat.add_sub_cancel_left]
  · have hcount : d.length.toNat * d.diskType.size = d.diskSize := Nat.mul_comm _ _
    rw [hcount, List.length_take, List.length_drop]
    omega

theorem decodeMany_take_diskSize (d : Declaration) (bytes : Bytes) :
    Scalar.decodeMany d.diskType d.length.toNat (bytes.take d.diskSize) =
      Scalar.decodeMany d.diskType d.length.toNat bytes :=
  Scalar.decodeMany_take (Nat.le_of_eq (Nat.mul_comm _ _))

/-- The bytes of an element in a column: a number in single precision, or in double. -/
def columnWidth : ElementType → Nat
  | .f32 => ElementType.f32.size
  | _ => ElementType.f64.size

theorem allocateColumn_eq_ok {room siteCount : Nat} {d : Declaration}
    (h : siteCount * d.length.toNat * columnWidth d.memoryType ≤ room)
    (hroom : room < UInt64.size) : allocateColumn room siteCount d = .ok () := by
  have hpos : 0 < columnWidth d.memoryType := by cases d.memoryType <;> decide
  have hcount : mul siteCount d.length.toNat = .ok (siteCount * d.length.toNat) := by
    apply mul_eq_ok
    have hle := Nat.le_mul_of_pos_right (siteCount * d.length.toNat) hpos
    omega
  rw [allocateColumn, hcount, ok_bind]
  cases htype : d.memoryType with
  | f32 =>
    rw [htype] at h
    exact allocate_eq_ok h
  | _ =>
    rw [htype] at h
    exact allocate_eq_ok h

/-- What every row holds is held by the block, once for each site. -/
theorem part_le_length {rowLength siteCount width : Nat} {block : Bytes}
    (hlength : block.length = rowLength * siteCount) (h : width ≤ rowLength) :
    siteCount * width ≤ block.length := by
  rw [hlength, Nat.mul_comm rowLength]
  exact Nat.mul_le_mul_left siteCount h

/-- What is kept of every site takes no more room than the coordinates in the block. -/
theorem allocate_sites_eq_ok {room siteCount width : Nat} {table : FieldTable} {block : Bytes}
    (hlength : block.length = table.rowLength * siteCount) (hblock : block.length ≤ room)
    (h : width ≤ Field.grid.diskSize) : allocate room siteCount width = .ok () := by
  have hrow : width ≤ table.rowLength := Nat.le_trans h table.grid_le_rowLength
  exact allocate_eq_ok (Nat.le_trans (part_le_length hlength hrow) hblock)

variable {room : Nat} {header : Header} {table : FieldTable} {block : Bytes}

/-- A stored element takes at least half of the bytes of the element in its column. -/
theorem allocateColumn_of_mem (hroom : 2 * block.length ≤ room) (hword : room < UInt64.size)
    (hlength : block.length = table.rowLength * header.siteCount.toNat) {d : Declaration}
    (hd : d ∈ table.declared) : allocateColumn room header.siteCount.toNat d = .ok () := by
  apply allocateColumn_eq_ok _ hword
  have hwidth : columnWidth d.memoryType ≤ 2 * d.diskType.size := by
    cases d.memoryType <;> cases d.diskType <;> decide
  have hsize := part_le_length hlength (table.diskSize_le_rowLength hd)
  calc header.siteCount.toNat * d.length.toNat * columnWidth d.memoryType
      ≤ header.siteCount.toNat * d.length.toNat * (2 * d.diskType.size) :=
        Nat.mul_le_mul_left _ hwidth
    _ = 2 * (header.siteCount.toNat * d.diskSize) := by
        rw [Declaration.diskSize]
        ac_rfl
    _ ≤ room := by omega

theorem push_ofDoubles (type : ElementType) (elements : List Double) (x : Double) :
    push (.ofDoubles type elements) x = .ofDoubles type (elements ++ [x]) := by
  cases type with
  | f32 => simp [Values.ofDoubles, push]
  | _ => simp [Values.ofDoubles, push]

/-- The elements of the cell come behind those that are there already. -/
theorem pushElements_eq_ok {baseline? : Option Double} {type memoryType : ElementType}
    {count : Nat} {bytes : Bytes} {elements : List Double}
    (h : count * type.size ≤ bytes.length) :
    pushElements baseline? type count bytes (.ofDoubles memoryType elements) =
      .ok (.ofDoubles memoryType (elements ++
        (Scalar.decodeMany type count bytes).map (ValueCoding.physical baseline?))) := by
  induction count generalizing bytes elements with
  | zero => simp [pushElements, Scalar.decodeMany]
  | succ count ih =>
    rw [Nat.succ_mul] at h
    have hfront : split type.size bytes = _ := split_eq_ok (by omega)
    have hrest : count * type.size ≤ (bytes.drop type.size).length := by
      rw [List.length_drop]
      omega
    rw [pushElements, hfront, ok_bind]
    dsimp only
    rw [push_ofDoubles, ih hrest, Scalar.decodeMany, List.map_cons, List.append_assoc,
      List.singleton_append]

theorem pushCell_eq_ok {baseline? : Option Double} {row : Bytes} {d : Declaration} {offset : Nat}
    (h : offset + d.diskSize ≤ row.length) (hlt : row.length < UInt64.size) (rows : List Bytes) :
    pushCell baseline? row d offset (Column.ofRows d offset baseline? rows) =
      .ok (Column.ofRows d offset baseline? (rows ++ [row])) := by
  obtain ⟨hsize, hstop, hslice, hfit⟩ := cell_bounds h hlt
  rw [pushCell, hsize, ok_bind, hstop, ok_bind, hslice, ok_bind, Column.ofRows,
    pushElements_eq_ok hfit, ok_bind, decodeMany_take_diskSize]
  simp [Column.ofRows, pure, Except.pure]

/-- The invariant of the fields of a row: the columns so far have one row more. -/
theorem pushRow_eq_ok {coding : ValueCoding} {row : Bytes} {index : Nat}
    {placed : List (Declaration × Nat)} (h : ∀ p ∈ placed, p.2 + p.1.diskSize ≤ row.length)
    (hlt : row.length < UInt64.size) (rows : List Bytes) :
    pushRow coding row index placed ((placed.zipIdx index).map fun ((d, offset), index) =>
        Column.ofRows d offset (coding.baseline? index) rows) =
      .ok ((placed.zipIdx index).map fun ((d, offset), index) =>
        Column.ofRows d offset (coding.baseline? index) (rows ++ [row])) := by
  induction placed generalizing index with
  | nil => rfl
  | cons p placed ih =>
    obtain ⟨hp, hplaced⟩ := List.forall_mem_cons.mp h
    rw [List.zipIdx_cons, List.map_cons, List.map_cons]
    rw [pushRow, pushCell_eq_ok hp hlt, ok_bind, ih hplaced, ok_bind]
    rfl

/-- The columns of all declared fields after these rows. -/
def columnsOf (coding : ValueCoding) (table : FieldTable) (rows : List Bytes) : List Column :=
  table.placed.zipIdx.map fun ((d, offset), index) =>
    Column.ofRows d offset (coding.baseline? index) rows

/-- The invariant of the rows: what is read so far is what the rows so far decode to. -/
theorem pushRows_eq_ok (coding : ValueCoding) (hwidth : table.rowLength < UInt64.size)
    {rows : List Bytes} (h : ∀ row ∈ rows, row.length = table.rowLength) (done : List Bytes) :
    pushRows coding table rows (done.map Grid.decode) (columnsOf coding table done) =
      .ok ((done ++ rows).map Grid.decode, columnsOf coding table (done ++ rows)) := by
  induction rows generalizing done with
  | nil => rw [List.append_nil, pushRows]
  | cons row rows ih =>
    obtain ⟨hrow, hrows⟩ := List.forall_mem_cons.mp h
    have hgrid : grid row = .ok (Grid.decode row) := grid_eq_ok (hrow ▸ table.grid_le_rowLength)
    have hpush : pushRow coding row 0 table.placed (columnsOf coding table done) =
        .ok (columnsOf coding table (done ++ [row])) :=
      pushRow_eq_ok (fun p hp => hrow ▸ table.placed_le_rowLength hp) (hrow ▸ hwidth) done
    have hnext := ih hrows (done ++ [row])
    rw [List.map_append, List.map_singleton, List.append_assoc, List.singleton_append] at hnext
    rw [pushRows, hgrid, ok_bind, hpush, ok_bind, hnext]

/-- Before the first row the columns are empty, wherever their fields lie. -/
theorem map_emptyColumn (coding : ValueCoding) (table : FieldTable) :
    table.declared.map (fun d => (⟨d.name, d.length.toNat, .ofDoubles d.memoryType []⟩ : Column)) =
      columnsOf coding table [] := by
  rw [columnsOf, ← table.map_zipIdx_placed]
  rfl

theorem conclude_eq_ok {rows : List Bytes} (h : rows.length = header.siteCount.toNat)
    (coding : ValueCoding) (table : FieldTable) (timeStep : UInt64) :
    conclude header timeStep (rows.map Grid.decode) (columnsOf coding table rows) =
      .ok (Record.ofRows coding table header timeStep rows) := by
  have hplaces : ((rows.map Grid.decode).map fun g =>
      (⟨g, header.positionOf g⟩ : Place)).toArray =
        (Record.ofRows coding table header timeStep rows).places := by
    rw [List.map_map]
    rfl
  have hsites : ((rows.map Grid.decode).map fun g =>
      (⟨g, header.positionOf g⟩ : Place)).length = header.siteCount.toNat := by
    rw [List.length_map, List.length_map, h]
  rw [conclude, dif_pos]
  · exact congrArg Except.ok (Record.ext rfl hplaces rfl)
  · refine ⟨hsites, fun c hc => ?_⟩
    rw [hplaces]
    exact (Record.ofRows coding table header timeStep rows).size_data c hc

/-- Filling columns row by row faults nowhere and leaves the record of the block. -/
theorem fillBlock_eq_ok (hwidth : table.rowLength < UInt64.size)
    (hexpected : table.rowLength * header.siteCount.toNat < UInt64.size)
    (hblock : block.length ≤ room)
    (hcolumns : block.length = table.rowLength * header.siteCount.toNat →
      ∀ d ∈ table.declared, allocateColumn room header.siteCount.toNat d = .ok ())
    (coding : ValueCoding) (timeStep : UInt64) :
    fillBlock room coding table header timeStep block =
      .ok (Record.ofBlock coding table header timeStep block) := by
  rw [fillBlock, rowLength_eq_ok hwidth, ok_bind, mul_eq_ok hexpected, ok_bind, Record.ofBlock]
  split_ifs with hlength
  · have hempty : table.declared.mapM (emptyColumn room header.siteCount.toNat) =
        .ok (columnsOf coding table []) := by
      rw [← map_emptyColumn]
      apply mapM_eq_ok
      intro d hd
      rw [emptyColumn, hcolumns hlength d hd, ok_bind]
      rfl
    have hgrids : allocate room header.siteCount.toNat Field.grid.memorySize = .ok () :=
      allocate_sites_eq_ok hlength hblock (Nat.le_refl _)
    have hids : allocate room header.siteCount.toNat Field.identifier.memorySize = .ok () :=
      allocate_sites_eq_ok hlength hblock (by decide)
    have hpositions : allocate room header.siteCount.toNat Field.position.memorySize = .ok () :=
      allocate_sites_eq_ok hlength hblock (Nat.le_refl _)
    have hchunks : chunks table.rowLength block =
        .ok (pieces table.rowLength header.siteCount.toNat block) :=
      chunks_eq_ok table.rowLength_pos hlength
    have hrows : ∀ row ∈ pieces table.rowLength header.siteCount.toNat block,
        row.length = table.rowLength :=
      fun row hrow => length_of_mem_pieces (Nat.le_of_eq (by rw [hlength, Nat.mul_comm])) hrow
    have hpush := pushRows_eq_ok coding hwidth hrows []
    have hconclude := conclude_eq_ok
      (length_pieces table.rowLength header.siteCount.toNat block) coding table timeStep
    rw [List.map_nil, List.nil_append] at hpush
    rw [hempty, ok_bind, hgrids, ok_bind, hchunks, ok_bind, hpush, ok_bind, hids]
    dsimp only
    rw [ok_bind, hpositions, ok_bind, hconclude, ok_bind]
    rfl
  · rfl

end LatticeSeries.Checked
