import LatticeSeries.Proofs.Opening

/-!
# Reading back what was written

A well-formed recording is encoded to a file that opens, and the open file has
the content of the recording: its headers, its fields, the values of its time
steps, and for every time step the record that its rows decode to.
-/
namespace LatticeSeries.Recording

-- Sums of sizes are those of core.
attribute [local instance (2000)] Zero.ofOfNat0

/-- Values are stored as they are in version three. In version four they are
relative to the baselines of the declared fields, which follow the zero of the
fields that every site has. -/
def HasCoding (r : Recording) (coding : ValueCoding) : Prop :=
  match r.version with
  | .three => coding = .absolute
  | .four => ∃ baselines, coding = .relative (.zero :: baselines) ∧
      baselines.map some = r.entries.map (·.baseline?)

/-- The record has what the recording stores for a time step, in every place: the value, the
coordinates with their positions, the names of the fields, and each of their elements. -/
structure ReadsBack (r : Recording) (f : Frame) (record : Record) : Prop where
  decodes : f.DecodesTo r.header r.entries record
  ids : record.ids.map UInt64.toNat = List.range r.siteCount.toNat
  grids : record.places.toList.map (·.grid) = f.rows.map (·.grid)
  positions : record.places.toList.map (·.position) = f.rows.map fun row =>
    r.origin.zipWith (fun origin i => (origin + r.voxelSize * .ofNat i.toNat).convert) row.grid
  fields : record.columns.map (fun c => (c.name, c.length)) =
    r.entries.map fun e => (e.name, e.length.toNat)
  elements : ∀ {index site k : Nat} {e : FieldEntry} {row : Row} {cell : List Scalar} {x : Scalar},
    r.entries[index]? = some e → f.rows[site]? = some row → row.cells[index]? = some cell →
    cell[k]? = some x →
    ∃ c y, record.columns[index]? = some c ∧
      c.data.scalars[site * e.length.toNat + k]? = some y ∧ x.ReadsAs e.baseline? y
  /-- Values that are stored as they are can be written again. -/
  frame_eq : r.version = .three → record.frame = f

/-- The open file has the content of the recording. -/
structure HeldBy (r : Recording) (s : Series) : Prop where
  header : s.header = r.header
  toNat_fieldCount : s.header.fieldCount.toNat = r.entries.length
  toNat_fieldHeaderLength : s.header.fieldHeaderLength.toNat = r.fieldHeader.length
  declared : s.table.declared = r.declarations
  fields : s.table.declared.map (fun d => (d.name, d.length)) =
    r.entries.map fun e => (e.name, e.length)
  coding : r.HasCoding s.coding
  times : s.times = r.frames.map (·.timeStep)
  timeCount : s.timeCount = r.frames.length
  timeStepAt : ∀ {i : Nat} {f : Frame}, r.frames[i]? = some f → s.timeStepAt i = .ok f.timeStep
  lookup : ∀ {i : Nat} {f : Frame}, r.frames[i]? = some f →
    ∃ record, s.lookupByIndex i = .ok record ∧ s.lookupByTimeStep f.timeStep = .ok record ∧
      r.ReadsBack f record

theorem map_declarations (r : Recording) :
    r.declarations.map (fun d => (d.name, d.length)) =
      r.entries.map fun e => (e.name, e.length) := by
  rw [declarations, List.map_map]
  exact List.map_congr_left fun e _ => by simp

namespace WellFormed

variable {r : Recording}

/-- The table that declares the fields of the recording. -/
def table (h : r.WellFormed) : FieldTable where
  declared := r.declarations
  names_nodup := by
    have hnames : r.declarations.map (·.name) = r.entries.map (·.name) := by
      rw [declarations, List.map_map]
      exact List.map_congr_left fun e _ => e.name_declaration r.version
    rw [hnames]
    exact h.names_nodup
  length_ne_zero := by
    intro d hd
    obtain ⟨e, he, rfl⟩ := List.mem_map.mp hd
    rw [FieldEntry.length_declaration]
    exact h.length_ne_zero e he

@[simp] theorem rowLength_table (h : r.WellFormed) : h.table.rowLength = r.rowLength := by
  rw [FieldTable.rowLength_eq]
  rfl

theorem fits (h : r.WellFormed) {f : Frame} (hf : f ∈ r.frames) :
    f.Fits h.table r.siteCount.toNat :=
  ⟨h.length_rows f hf, h.cellsFit f hf⟩

/-- A name is part of the field header, so its length fits a word. -/
theorem storable (h : r.WellFormed) {e : FieldEntry} (he : e ∈ r.entries) :
    e.Storable r.version :=
  ⟨Nat.lt_of_le_of_lt (FieldEntry.length_name_le he) h.fieldHeader_lt, h.baseline e he⟩

theorem toNat_fieldHeaderLength (h : r.WellFormed) :
    r.header.fieldHeaderLength.toNat = r.fieldHeader.length :=
  UInt32.toNat_ofNat_of_lt' h.fieldHeader_lt

theorem toNat_fieldCount (h : r.WellFormed) : r.header.fieldCount.toNat = r.entries.length := by
  have hcount : 8 * r.entries.length ≤ r.fieldHeader.length :=
    FieldEntry.eight_mul_length_le r.entries
  have hlt := h.fieldHeader_lt
  exact UInt32.toNat_ofNat_of_lt' (by omega)

theorem totalLength_eq (h : r.WellFormed) :
    r.header.totalLength = (r.header.encode ++ r.fieldHeader).length := by
  rw [Header.totalLength, h.toNat_fieldHeaderLength, List.length_append, Header.length_encode]

theorem length_encode_frame (h : r.WellFormed) {f : Frame} (hf : f ∈ r.frames) :
    f.encode.length = r.recordLength := by
  rw [(h.fits hf).length_encode, h.rowLength_table, recordLength]

theorem drop_totalLength (h : r.WellFormed) :
    r.encode.drop r.header.totalLength = r.frames.flatMap Frame.encode := by
  rw [encode, h.totalLength_eq, List.drop_left]

theorem length_body (h : r.WellFormed) :
    r.encode.length - r.header.totalLength =
      r.frames.length * r.recordLength := by
  rw [← List.length_drop, h.drop_totalLength]
  exact length_flatMap_of_length fun f hf => h.length_encode_frame hf

def index (h : r.WellFormed) : TimeIndex where
  entries := (TimeIndex.scan r.recordLength r.frames.length r.header.totalLength
    (r.frames.flatMap Frame.encode)).toArray
  ascending := by
    rw [List.toList_toArray, TimeIndex.map_timeStep_scan (fun f hf => h.length_encode_frame hf)
      (fun f _ => f.take_encode) (Nat.le_add_left _ _)]
    exact h.ascending

/-- The file that the recording is written to, when it is open. -/
def series (h : r.WellFormed) (path : String) : Series where
  path := path
  bytes := r.encode
  header := r.header
  table := h.table
  coding := .ofEntries r.version r.entries
  recordLength := r.recordLength
  index := h.index

variable (path : String)

theorem madeOf (h : r.WellFormed) :
    FieldHeader.MadeOf ⟨h.table, .ofEntries r.version r.entries⟩ r.version r.entries :=
  ⟨fun _ he => h.storable he, rfl, rfl⟩

theorem decode_fieldHeader (h : r.WellFormed) :
    FieldHeader.decode r.header {} (r.encode.drop Header.length) =
      .ok ⟨h.table, .ofEntries r.version r.entries⟩ := by
  have hdrop : r.encode.drop Header.length =
      r.fieldHeader ++ r.frames.flatMap Frame.encode := by
    rw [encode, List.append_assoc, List.drop_left' (Header.length_encode _)]
  refine FieldHeader.decode_eq_ok_iff.mpr ⟨?_, r.entries, h.madeOf, h.toNat_fieldCount.symm, ?_, ?_⟩
  · rw [hdrop, h.toNat_fieldHeaderLength, List.length_append]
    exact Nat.le_add_right _ _
  · intro e _
    exact Nat.le_of_lt_succ e.length.toNat_lt
  · rw [hdrop, h.toNat_fieldHeaderLength, List.take_left]
    rfl

theorem build_index (h : r.WellFormed) :
    TimeIndex.build r.encode r.header.totalLength r.recordLength = .ok h.index := by
  have hmarker : TimeIndex.markerLength ≤ r.recordLength := Nat.le_add_left _ _
  have hpos : 0 < r.recordLength := Nat.lt_of_lt_of_le (by decide) hmarker
  refine TimeIndex.build_eq_ok_iff.mpr ⟨hmarker, ?_, ?_, ?_⟩
  · rw [h.totalLength_eq, encode]
    exact (List.prefix_append _ _).length_le
  · rw [h.length_body]
    exact Nat.mul_mod_left _ _
  · rw [h.length_body, Nat.mul_div_cancel _ hpos, h.drop_totalLength]
    rfl

theorem opened (h : r.WellFormed) : (h.series path).Opened {} path r.encode where
  limits_valid := rfl
  path_eq := rfl
  bytes_eq := rfl
  header := by
    change Header.decode r.encode = .ok r.header
    rw [encode, List.append_assoc]
    exact Header.decode_encode_append rfl _
  within := Series.checkLimits_default r.header
  fields := h.decode_fieldHeader
  recordLength_eq := by
    change r.recordLength = h.table.rowLength * r.siteCount.toNat + TimeIndex.markerLength
    rw [h.rowLength_table, recordLength]
  recordLength_lt := h.recordLength_lt
  index := h.build_index

theorem load_eq (h : r.WellFormed) :
    Series.load {} path (some r.encode) = .ok (h.series path) :=
  Series.load_eq_ok_iff.mpr (h.opened path)

@[simp] theorem timeCount_series (h : r.WellFormed) :
    (h.series path).timeCount = r.frames.length := by
  simp [Series.timeCount, TimeIndex.size, series, index]

theorem lt_timeCount (h : r.WellFormed) {i : Nat} {f : Frame} (hf : r.frames[i]? = some f) :
    i < (h.series path).timeCount := by
  rw [h.timeCount_series path]
  exact (List.getElem?_eq_some_iff.mp hf).1

theorem times_series (h : r.WellFormed) :
    (h.series path).times = r.frames.map (·.timeStep) := by
  change h.index.entries.toList.map _ = _
  rw [index, List.toList_toArray]
  exact TimeIndex.map_timeStep_scan (fun f hf => h.length_encode_frame hf)
    (fun f _ => f.take_encode) (Nat.le_add_left _ _)

theorem entries_series (h : r.WellFormed) : (h.series path).entries = r.entries :=
  h.madeOf.entries_eq

/-- The records of the file are the encodings of the frames, each in its place. -/
theorem frameAt_series (h : r.WellFormed) {i : Nat} {f : Frame} (hf : r.frames[i]? = some f) :
    (h.series path).frameAt i = f := by
  have hmem : f ∈ r.frames := List.mem_of_getElem? hf
  have hi : i < r.frames.length := (List.getElem?_eq_some_iff.mp hf).1
  have hpieces := pieces_flatMap fun f hf => h.length_encode_frame hf
  have hrecord : (h.series path).recordBytes i = f.encode := by
    apply Option.some.inj
    rw [Series.recordBytes, ← List.drop_drop]
    change some (((r.encode.drop r.header.totalLength).drop _).take _) = _
    rw [h.drop_totalLength, ← getElem?_pieces hi]
    change (pieces r.recordLength _ _)[i]? = _
    rw [hpieces, List.getElem?_map, hf]
    rfl
  rw [Series.frameAt, hrecord]
  exact (h.fits hmem).decode_encode

theorem timeStepAt_series (h : r.WellFormed) {i : Nat} {f : Frame} (hf : r.frames[i]? = some f) :
    (h.series path).timeStepAt i = .ok f.timeStep := by
  rw [(h.opened path).timeStepAt_eq (h.lt_timeCount path hf), h.frameAt_series path hf]

/-- The record at the place of a frame is what the rows of the frame decode to. -/
theorem lookupByIndex_series (h : r.WellFormed) {i : Nat} {f : Frame}
    (hf : r.frames[i]? = some f) :
    ∃ record, (h.series path).lookupByIndex i = .ok record ∧
      f.DecodesTo r.header r.entries record := by
  obtain ⟨record, hlookup, hdecodes⟩ := (h.opened path).decodesTo (h.lt_timeCount path hf)
  rw [h.frameAt_series path hf, h.entries_series path] at hdecodes
  exact ⟨record, hlookup, hdecodes⟩

theorem lookupByTimeStep_series (h : r.WellFormed) {i : Nat} {f : Frame}
    (hf : r.frames[i]? = some f) :
    (h.series path).lookupByTimeStep f.timeStep = (h.series path).lookupByIndex i := by
  have hposition : h.index.positionOf f.timeStep = .ok i :=
    h.index.positionOf_eq_ok_iff_get.mpr ⟨h.lt_timeCount path hf, h.timeStepAt_series path hf⟩
  change (h.index.positionOf f.timeStep >>= _) = _
  rw [hposition]
  rfl

/-- The record of a frame has what the frame stores. -/
theorem readsBack (h : r.WellFormed) {f : Frame} (hf : f ∈ r.frames) {record : Record}
    (hdecodes : f.DecodesTo r.header r.entries record) : r.ReadsBack f record := by
  have hsize : record.size = r.siteCount.toNat := by
    rw [hdecodes.size_eq, h.length_rows f hf]
  have hstorable : ∀ e ∈ r.entries, e.Storable r.version := fun _ he => h.storable he
  have hfit : ∀ row ∈ f.rows, Row.CellsFit (r.entries.map (·.declaration r.version)) row.cells :=
    h.cellsFit f hf
  refine
    { decodes := hdecodes
      ids := ?_
      grids := hdecodes.grids_eq.symm
      positions := ?_
      fields := hdecodes.map_columns
      elements := hdecodes.exists_element hstorable hfit
      frame_eq := ?_ }
  · rw [← hsize]
    exact Record.map_toNat_ids (hsize ▸ r.siteCount.toNat_lt)
  · rw [hdecodes.places, List.map_map]
    rfl
  · intro hversion
    exact hdecodes.frame_eq (hversion ▸ hstorable) (hversion ▸ hfit)

/-- Both lookups of a time step give what the recording stores for it. -/
theorem lookup_series (h : r.WellFormed) {i : Nat} {f : Frame} (hf : r.frames[i]? = some f) :
    ∃ record, (h.series path).lookupByIndex i = .ok record ∧
      (h.series path).lookupByTimeStep f.timeStep = .ok record ∧ r.ReadsBack f record := by
  obtain ⟨record, hlookup, hdecodes⟩ := h.lookupByIndex_series path hf
  have hvalue := h.lookupByTimeStep_series path hf
  exact ⟨record, hlookup, hvalue.trans hlookup, h.readsBack (List.mem_of_getElem? hf) hdecodes⟩

theorem hasCoding_series (h : r.WellFormed) : r.HasCoding (h.series path).coding := by
  have hbaseline := h.baseline
  change r.HasCoding (.ofEntries r.version r.entries)
  unfold HasCoding
  cases hversion : r.version with
  | three => rfl
  | four =>
    have hsome : ∀ e ∈ r.entries, e.baseline?.isSome := fun e he =>
      (hbaseline e he).mpr hversion
    exact ⟨_, rfl, FieldEntry.map_some_baselines hsome⟩

/-- Any of the time steps of a recording, in their order, are a recording too. -/
theorem of_sublist (h : r.WellFormed) {frames : List Frame} (hframes : frames.Sublist r.frames) :
    WellFormed { r with frames } where
  names_nodup := h.names_nodup
  length_ne_zero := h.length_ne_zero
  baseline := h.baseline
  fieldHeader_lt := h.fieldHeader_lt
  recordLength_lt := h.recordLength_lt
  ascending := h.ascending.sublist (hframes.map _)
  length_rows := fun f hf => h.length_rows f (hframes.subset hf)
  cellsFit := fun f hf => h.cellsFit f (hframes.subset hf)

end WellFormed

/-- Two sites at two time steps, with one field of two elements. -/
def sample (version : Version) : Recording where
  version := version
  voxelSize := .ofNat 1
  origin := ⟨.zero, .zero, .zero⟩
  siteCount := 2
  entries :=
    match version with
    | .three => [⟨"velocity", 2, none⟩]
    | .four => [⟨"velocity", 2, some (.ofNat 1000)⟩]
  frames :=
    let element (n : Nat) : Scalar :=
      match version with
      | .three => .f64 (.ofNat n)
      | .four => .f32 (.ofNat n)
    [⟨5, [⟨⟨0, 0, 0⟩, [[element 1, element 2]]⟩, ⟨⟨0, 0, 1⟩, [[element 3, element 4]]⟩]⟩,
      ⟨9, [⟨⟨0, 0, 0⟩, [[element 5, element 6]]⟩, ⟨⟨0, 0, 1⟩, [[element 7, element 8]]⟩]⟩]

theorem wellFormed_sample (version : Version) : (sample version).WellFormed := by
  cases version with
  | three =>
    exact ⟨by decide, by decide, by decide, by decide, by decide, by decide, by decide,
      by simp [sample, Row.CellsFit, declarations, FieldEntry.declaration, Scalar.type]⟩
  | four =>
    exact ⟨by decide, by decide, by decide, by decide, by decide, by decide, by decide,
      by simp [sample, Row.CellsFit, declarations, FieldEntry.declaration, Scalar.type]⟩

/-- A time step of the sample of version four, from the first of its four numbers. -/
def sampleRecord (timeStep : UInt64) (first : Nat) : Record where
  timeStep := timeStep
  places := #[⟨⟨0, 0, 0⟩, ⟨.zero, .zero, .zero⟩⟩, ⟨⟨0, 0, 1⟩, ⟨.zero, .zero, .ofNat 1⟩⟩]
  columns :=
    [⟨"velocity", 2,
      .single #[.ofNat first, .ofNat (first + 1), .ofNat (first + 2), .ofNat (first + 3)]⟩]
  size_data := by simp [Values.size]

/-- The numbers from one to eight are stored, on a baseline of one thousand. -/
theorem eq_sampleRecord {i : Nat} {f : Frame} (hf : (sample .four).frames[i]? = some f)
    {record : Record} (h : f.DecodesTo (sample .four).header (sample .four).entries record) :
    record = sampleRecord f.timeStep (1001 + 4 * i) := by
  have hplaces : record.places.toList = (sampleRecord f.timeStep (1001 + 4 * i)).places.toList := by
    rw [h.places]
    match i, hf with
    | 0, rfl => decide +kernel
    | 1, rfl => decide +kernel
  have hcolumns : record.columns = (sampleRecord f.timeStep (1001 + 4 * i)).columns := by
    rw [h.columns]
    match i, hf with
    | 0, rfl => decide +kernel
    | 1, rfl => decide +kernel
  exact Record.ext h.timeStep (Array.toList_inj.mp hplaces) hcolumns

theorem lookup_sampleRecord (path : String) {i : Nat} {f : Frame}
    (hf : (sample .four).frames[i]? = some f) :
    ((wellFormed_sample .four).series path).lookupByIndex i =
        .ok (sampleRecord f.timeStep (1001 + 4 * i)) ∧
      ((wellFormed_sample .four).series path).lookupByTimeStep f.timeStep =
        .ok (sampleRecord f.timeStep (1001 + 4 * i)) := by
  obtain ⟨record, hindex, hvalue, hreads⟩ := (wellFormed_sample .four).lookup_series path hf
  obtain rfl := eq_sampleRecord hf hreads.decodes
  exact ⟨hindex, hvalue⟩

/-- What was written is read back: headers, fields, baselines, values of the
time steps, and at every position the record of what the time step stores. -/
theorem load_encode {r : Recording} (h : r.WellFormed) (path : String) :
    ∃ s, Series.load {} path (some r.encode) = .ok s ∧ r.HeldBy s := by
  refine ⟨h.series path, h.load_eq path, ?_⟩
  exact
    { header := rfl
      toNat_fieldCount := h.toNat_fieldCount
      toNat_fieldHeaderLength := h.toNat_fieldHeaderLength
      declared := rfl
      fields := r.map_declarations
      coding := h.hasCoding_series path
      times := h.times_series path
      timeCount := h.timeCount_series path
      timeStepAt := h.timeStepAt_series path
      lookup := h.lookup_series path }

theorem load_encode_sample :
    ((sample .four).WellFormed ∧
      ∃ s, Series.load {} "flow.xtr" (some (sample .four).encode) = .ok s ∧
        s.times = [5, 9] ∧ s.lookupByTimeStep 9 = .ok (sampleRecord 9 1005) ∧
        (sampleRecord 9 1005).ids.map UInt64.toNat = [0, 1]) ∧
    (sample .three).WellFormed ∧
      ∃ s, Series.load {} "flow.xtr" (some (sample .three).encode) = .ok s ∧
        ∃ record, s.lookupByIndex 0 = .ok record ∧
          record.columns =
            [⟨"velocity", 2, .double #[.ofNat 1, .ofNat 2, .ofNat 3, .ofNat 4]⟩] := by
  constructor
  · have hwell := wellFormed_sample .four
    obtain ⟨s, hload, hheld⟩ := load_encode hwell "flow.xtr"
    obtain ⟨record, -, hrecord, hreads⟩ := hheld.lookup (i := 1) rfl
    obtain rfl : record = sampleRecord 9 1005 := eq_sampleRecord (i := 1) rfl hreads.decodes
    exact ⟨hwell, s, hload, hheld.times, hrecord, hreads.ids⟩
  · have hwell := wellFormed_sample .three
    obtain ⟨s, hload, hheld⟩ := load_encode hwell "flow.xtr"
    obtain ⟨record, hrecord, -, hreads⟩ := hheld.lookup (i := 0) rfl
    refine ⟨hwell, s, hload, record, hrecord, ?_⟩
    rw [hreads.decodes.columns]
    decide +kernel

end LatticeSeries.Recording
