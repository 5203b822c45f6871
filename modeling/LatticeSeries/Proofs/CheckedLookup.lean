import LatticeSeries.Proofs.CheckedBlock
import LatticeSeries.Proofs.RoundTrip

/-!
# Decoding an open file never faults

Opening a file establishes that its records tile it and that its rows hold every
field. Therefore no sum or product wraps when a time step is decoded, no bytes
are taken from past the end, and no allocation asks for more room than the file
itself has.
-/
namespace LatticeSeries

-- Sums of sizes are those of core.
attribute [local instance (2000)] Zero.ofOfNat0

theorem Declaration.sum_diskSize_le (ds : List Declaration) :
    (ds.map diskSize).sum ≤ ds.length * (8 * (UInt32.size - 1)) := by
  induction ds with
  | nil => exact Nat.zero_le _
  | cons d ds ih =>
    have hd : d.diskSize ≤ 8 * (UInt32.size - 1) :=
      Nat.mul_le_mul (by cases d.diskType <;> decide) (Nat.le_pred_of_lt d.length.toNat_lt)
    rw [List.map_cons, List.sum_cons, List.length_cons, Nat.succ_mul]
    omega

namespace FieldHeader.MadeOf

variable {fields : FieldHeader} {version : Version} {es : List FieldEntry}

/-- Declared fields hold floating-point numbers and keep their precision. -/
theorem float_of_mem (h : fields.MadeOf version es) {d : Declaration}
    (hd : d ∈ fields.table.declared) :
    d.memoryType = d.diskType ∧ (d.diskType = .f32 ∨ d.diskType = .f64) := by
  rw [h.declared] at hd
  obtain ⟨e, -, rfl⟩ := List.mem_map.mp hd
  cases version with
  | three => exact ⟨rfl, Or.inr rfl⟩
  | four => exact ⟨rfl, Or.inl rfl⟩

theorem columnWidth_of_mem (h : fields.MadeOf version es) {d : Declaration}
    (hd : d ∈ fields.table.declared) :
    Checked.columnWidth d.memoryType = d.diskType.size := by
  obtain ⟨hkept, htype⟩ := h.float_of_mem hd
  rw [hkept]
  rcases htype with htype | htype
  · rw [htype]
    rfl
  · rw [htype]
    rfl

/-- The field header is too short for a row whose length does not fit a word. -/
theorem rowLength_lt (h : fields.MadeOf version es)
    (hlength : (es.flatMap FieldEntry.encode).length < UInt32.size) :
    fields.table.rowLength < UInt64.size := by
  have hcount : 8 * es.length ≤ (es.flatMap FieldEntry.encode).length :=
    FieldEntry.eight_mul_length_le es
  have hdeclared := Declaration.sum_diskSize_le fields.table.declared
  rw [h.declared, List.length_map] at hdeclared
  rw [FieldTable.rowLength_eq, h.declared]
  simp only [UInt32.size] at hlength hdeclared
  simp only [UInt64.size]
  omega

end FieldHeader.MadeOf

namespace Series.Opened

variable {limits : Limits} {path : String} {bytes : Bytes} {s : Series}

theorem rowLength_lt (h : s.Opened limits path bytes) : s.table.rowLength < UInt64.size := by
  apply h.fieldHeader.1.rowLength_lt
  rw [h.length_flatMap_encode_entries]
  exact s.header.fieldHeaderLength.toNat_lt

theorem checked_lookup (h : s.Opened limits path bytes) {room : Nat} (hfile : bytes.length ≤ room)
    (hroom : room < UInt64.size) (i : Nat) :
    Checked.lookup room s i = .ok (s.lookupByIndex i) := by
  rcases Nat.lt_or_ge i s.timeCount with hi | hi
  · have hrecord := h.record_le hi
    have hmarker := h.markerLength_le
    have hstart : Checked.add (s.header.totalLength + i * s.recordLength)
        TimeIndex.markerLength = .ok _ := Checked.add_eq_ok (by omega)
    have hstop : Checked.add (s.header.totalLength + i * s.recordLength) s.recordLength =
        .ok _ := Checked.add_eq_ok (by omega)
    have hslice : Checked.slice s.bytes
        (s.header.totalLength + i * s.recordLength + TimeIndex.markerLength)
        (s.header.totalLength + i * s.recordLength + s.recordLength) =
          .ok ((s.recordBytes i).drop TimeIndex.markerLength) := by
      rw [h.bytes_eq, Checked.slice_eq_ok (by omega) hrecord, Nat.add_sub_add_left, recordBytes,
        h.bytes_eq, List.drop_take, List.drop_drop]
    have hlength := h.length_block hi
    have hblock : ((s.recordBytes i).drop TimeIndex.markerLength).length ≤ room := by
      have hwhole := h.length_recordBytes hi
      rw [List.length_drop]
      omega
    have hexpected : s.table.rowLength * s.header.siteCount.toNat < UInt64.size := by omega
    have hcolumns : ∀ d ∈ s.table.declared,
        Checked.allocateColumn room s.header.siteCount.toNat d = .ok () := by
      intro d hd
      apply Checked.allocateColumn_eq_ok _ hroom
      have hsize := Checked.part_le_length hlength (s.table.diskSize_le_rowLength hd)
      rw [h.fieldHeader.1.columnWidth_of_mem hd, Nat.mul_assoc, Nat.mul_comm d.length.toNat]
      exact Nat.le_trans hsize hblock
    have hdecoded := Checked.fillBlock_eq_ok h.rowLength_lt hexpected hblock (fun _ => hcolumns)
      s.coding (s.frameAt i).timeStep
    rw [Checked.lookup, h.get_eq hi, h.lookupByIndex_eq hi]
    simp only [hstart, hstop, hslice, ok_bind, hdecoded, Record.ofBlock, if_pos hlength]
  · have hget : s.index.get i = .error (.indexOutOfRange i s.index.size) := s.index.get_of_le hi
    rw [Checked.lookup, lookupByIndex, hget]
    rfl

end Series.Opened

theorem Values.type_ofDoubles {type : ElementType} (h : type = .f32 ∨ type = .f64)
    (elements : List Double) : (ofDoubles type elements).type = type := by
  rcases h with rfl | rfl
  · rfl
  · rfl

/-- One column for each declared field, of the type in memory, with all elements. -/
theorem FieldHeader.MadeOf.columns_ofRows {fields : FieldHeader} {version : Version}
    {es : List FieldEntry} (h : fields.MadeOf version es) (header : Header) (timeStep : UInt64)
    (rows : List Bytes) :
    ((Record.ofRows fields.coding fields.table header timeStep rows).columns.map fun c =>
      (c.name, c.length, c.data.type, c.data.size)) =
        fields.table.declared.map fun d =>
          (d.name, d.length.toNat, d.memoryType, rows.length * d.length.toNat) := by
  rw [← fields.table.map_zipIdx_placed, Record.ofRows, List.map_map]
  apply List.map_congr_left
  intro p hp
  rcases p with ⟨⟨d, offset⟩, index⟩
  have hmem : d ∈ fields.table.declared := by
    have hplaced := List.mem_of_getElem? (List.mem_zipIdx_iff_getElem?.mp hp)
    rw [← Declaration.map_fst_place Field.grid.diskSize fields.table.declared]
    exact List.mem_map_of_mem hplaced
  obtain ⟨hkept, htype⟩ := h.float_of_mem hmem
  have hsize := Column.size_data_ofRows d offset (fields.coding.baseline? index) rows
  have hfloat : (Column.ofRows d offset (fields.coding.baseline? index) rows).data.type =
      d.memoryType := Values.type_ofDoubles (hkept ▸ htype) _
  simp only [Function.comp_apply, hsize, hfloat]
  rfl

namespace Series

theorem Opened.size_of_lookupByIndex {limits : Limits} {path : String} {bytes : Bytes} {s : Series}
    (h : s.Opened limits path bytes) {i : Nat} (hi : i < s.timeCount) {r : Record}
    (hr : s.lookupByIndex i = .ok r) : r.size = s.header.siteCount.toNat := by
  obtain ⟨r', hr', hdecodes⟩ := h.decodesTo hi
  obtain rfl : r' = r := Except.ok.inj (hr'.symm.trans hr)
  rw [hdecodes.size_eq, (s.fits_frameAt i).length_rows]

/-- A record in the shape that the headers declare, of the time step at this position. -/
structure Shapes (s : Series) (i : Nat) (r : Record) : Prop where
  timeStep_eq : s.timeStepAt i = .ok r.timeStep
  size_eq : r.size = s.header.siteCount.toNat
  ids_eq : r.ids.map UInt64.toNat = List.range s.header.siteCount.toNat
  size_places : r.places.size = s.header.siteCount.toNat
  columns_eq : (r.columns.map fun c => (c.name, c.length, c.data.type, c.data.size)) =
    s.table.declared.map fun d =>
      (d.name, d.length.toNat, d.memoryType, s.header.siteCount.toNat * d.length.toNat)

theorem Opened.shapes {limits : Limits} {path : String} {bytes : Bytes} {s : Series}
    (h : s.Opened limits path bytes) {i : Nat} (hi : i < s.timeCount) :
    ∃ r, s.lookupByIndex i = .ok r ∧ s.Shapes i r := by
  have hlookup := h.lookupByIndex_eq hi
  have hsize := h.size_of_lookupByIndex hi hlookup
  have hids := Record.map_toNat_ids (hsize ▸ s.header.siteCount.toNat_lt)
  have hcolumns := h.fieldHeader.1.columns_ofRows s.header (s.frameAt i).timeStep
    (pieces s.table.rowLength s.header.siteCount.toNat
      ((s.recordBytes i).drop TimeIndex.markerLength))
  rw [length_pieces] at hcolumns
  exact ⟨_, hlookup,
    { timeStep_eq := h.timeStepAt_eq hi
      size_eq := hsize
      ids_eq := hids.trans (congrArg List.range hsize)
      size_places := hsize
      columns_eq := hcolumns }⟩

/-- What the lookup at a position of an open file comes to. No checked operation faults
in a process that has room for the file. -/
structure Answers (s : Series) (bytes : Bytes) (i : Nat) : Prop where
  checked : ∀ room, bytes.length ≤ room → room < UInt64.size →
    Checked.lookup room s i = .ok (s.lookupByIndex i)
  not_truncated : ∀ part expected actual,
    s.lookupByIndex i ≠ .error (.truncated part expected actual)
  inside : i < s.timeCount → ∃ r, s.lookupByIndex i = .ok r ∧ s.Shapes i r
  outside : s.timeCount ≤ i →
    s.lookupByIndex i = .error (.indexOutOfRange i s.timeCount) ∧
      s.timeStepAt i = .error (.indexOutOfRange i s.timeCount)

/-- Once a file is open, every position is answered: one inside the file yields a
record of the declared shape, and one outside is reported with the number of time steps. -/
theorem lookupByIndex_total {limits : Limits} {path : String} {bytes : Bytes} {s : Series}
    (h : load limits path (some bytes) = .ok s) (i : Nat) : s.Answers bytes i := by
  have hopened := load_eq_ok_iff.mp h
  refine ⟨fun room hfile hroom => hopened.checked_lookup hfile hroom i, ?_, hopened.shapes,
    fun hi => ⟨lookupByIndex_of_le hi, timeStepAt_of_le hi⟩⟩
  intro part expected actual htruncated
  rcases Nat.lt_or_ge i s.timeCount with hi | hi
  · rw [hopened.lookupByIndex_eq hi] at htruncated
    cases htruncated
  · rw [lookupByIndex_of_le hi] at htruncated
    cases htruncated

theorem lookupByIndex_total_sample :
    ∃ s, load {} "flow.xtr" (some (Recording.sample .four).encode) = .ok s ∧
      Checked.lookup (Recording.sample .four).encode.length s 1 = .ok (s.lookupByIndex 1) ∧
      (∃ r, s.lookupByIndex 1 = .ok r ∧ r.size = 2) ∧
      s.lookupByIndex 2 = .error (.indexOutOfRange 2 2) := by
  have hwell := Recording.wellFormed_sample .four
  have hload := hwell.load_eq "flow.xtr"
  have hcount : (hwell.series "flow.xtr").timeCount = 2 := hwell.timeCount_series "flow.xtr"
  have hinside := lookupByIndex_total hload 1
  have houtside := (lookupByIndex_total hload 2).outside
  obtain ⟨r, hr, hshapes⟩ := hinside.inside (by omega)
  rw [hcount] at houtside
  exact ⟨_, hload, hinside.checked _ (Nat.le_refl _) (by decide +kernel), ⟨r, hr, hshapes.size_eq⟩,
    (houtside (Nat.le_refl 2)).1⟩

end Series

end LatticeSeries
