import LatticeSeries.Proofs.RoundTrip

/-!
# Accepted files are canonical

A file that opens is the encoding of its headers and of its time steps. In
version three the time steps can be taken from the decoded records, so nothing
but the decoded content decides about the bytes. In version four a decoded value
is a rounded sum, and the content decides about every byte outside the stored
elements.
-/
namespace LatticeSeries

-- Sums of sizes are those of core.
attribute [local instance (2000)] Zero.ofOfNat0

theorem Row.getElem?_encode_of_lt (r : Row) {p : Nat} (hp : p < Field.grid.diskSize) :
    r.encode[p]? = (Grid.encode r.grid)[p]? := by
  rw [encode, List.getElem?_append_left]
  rwa [Grid.length_encode]

namespace Frame.Fits

variable {table : FieldTable} {siteCount : Nat} {f g : Frame}

theorem getElem?_encode_grid (h : f.Fits table siteCount) {p : Nat}
    (hp : TimeIndex.markerLength ≤ p)
    (hgrid : (p - TimeIndex.markerLength) % table.rowLength < Field.grid.diskSize) :
    f.encode[p]? = ((f.rows.map (·.grid))[(p - TimeIndex.markerLength) / table.rowLength]?).bind
      fun grid => (Grid.encode grid)[(p - TimeIndex.markerLength) % table.rowLength]? := by
  have hlength : (bytesOfU64 f.timeStep).length = TimeIndex.markerLength := length_bytesOfU64 _
  have hrows : ∀ row ∈ f.rows, row.encode.length = table.rowLength := fun row hrow =>
    Row.length_encode (h.cellsFit row hrow)
  rw [encode, List.getElem?_append_right (hlength ▸ hp), hlength,
    getElem?_flatMap_of_length table.rowLength_pos hrows, List.getElem?_map]
  cases f.rows[(p - TimeIndex.markerLength) / table.rowLength]? with
  | none => rfl
  | some row => exact row.getElem?_encode_of_lt hgrid

/-- Where no stored element lies, the value and the coordinates decide. -/
theorem getElem?_encode_eq (hf : f.Fits table siteCount) (hg : g.Fits table siteCount)
    (htimeStep : f.timeStep = g.timeStep)
    (hgrids : f.rows.map (·.grid) = g.rows.map (·.grid)) {p : Nat}
    (hp : TimeIndex.markerLength ≤ p →
      (p - TimeIndex.markerLength) % table.rowLength < Field.grid.diskSize) :
    f.encode[p]? = g.encode[p]? := by
  rcases Nat.lt_or_ge p TimeIndex.markerLength with hmarker | hmarker
  · have htake : f.encode.take TimeIndex.markerLength = g.encode.take TimeIndex.markerLength := by
      rw [f.take_encode, g.take_encode, htimeStep]
    rw [← List.getElem?_take_of_lt hmarker, htake, List.getElem?_take_of_lt hmarker]
  · rw [hf.getElem?_encode_grid hmarker (hp hmarker),
      hg.getElem?_encode_grid hmarker (hp hmarker), hgrids]

end Frame.Fits

namespace Series

/-- Neither the headers nor the decoded records tell the two files apart. -/
structure SameContent (s t : Series) : Prop where
  header : s.header = t.header
  table : s.table = t.table
  timeCount : s.timeCount = t.timeCount
  records : ∀ i, s.lookupByIndex i = t.lookupByIndex i

theorem SameContent.entries_eq {s t : Series} (h : s.SameContent t)
    (hcoding : s.coding = t.coding) : s.entries = t.entries := by
  rw [entries, entries, h.table, hcoding]

namespace Opened

variable {limits limits' : Limits} {path path' : String} {bytes bytes' : Bytes} {s t : Series}

/-- A byte of the body is a byte of one of the records. -/
theorem getElem?_body (h : s.Opened limits path bytes) {p : Nat}
    (hp : s.header.totalLength ≤ p) :
    bytes[p]? = s.frames[(p - s.header.totalLength) / s.recordLength]?.bind fun f =>
      f.encode[(p - s.header.totalLength) % s.recordLength]? := by
  have hdrop : (bytes.drop s.header.totalLength)[p - s.header.totalLength]? = bytes[p]? := by
    rw [List.getElem?_drop]
    congr 1
    omega
  rw [← hdrop, h.drop_totalLength]
  exact getElem?_flatMap_of_length h.recordLength_pos
    (fun f hf => h.length_encode_of_mem_frames hf) _

theorem recordLength_congr (h : s.Opened limits path bytes) (h' : t.Opened limits' path' bytes')
    (hsame : t.SameContent s) : t.recordLength = s.recordLength := by
  rw [h'.recordLength_eq, h.recordLength_eq, hsame.header, hsame.table]

theorem length_congr (h : s.Opened limits path bytes) (h' : t.Opened limits' path' bytes')
    (hsame : t.SameContent s) : bytes'.length = bytes.length := by
  rw [h'.length_eq, h.length_eq, h.recordLength_congr h' hsame, hsame.header, hsame.timeCount]

theorem take_totalLength (h : s.Opened limits path bytes) :
    bytes.take s.header.totalLength =
      s.header.encode ++ s.entries.flatMap FieldEntry.encode := by
  rw [← h.fieldHeader.2.2, ← h.take_length, ← List.take_add, Header.totalLength]

/-- Both time steps at a position decode to the record that the files share. -/
theorem exists_decodesTo (h : s.Opened limits path bytes) (h' : t.Opened limits' path' bytes')
    (hsame : t.SameContent s) {i : Nat} (hi : i < s.timeCount) :
    ∃ r, (s.frameAt i).DecodesTo s.header s.entries r ∧
      (t.frameAt i).DecodesTo t.header t.entries r := by
  obtain ⟨r, hr, hdecodes⟩ := h.decodesTo hi
  obtain ⟨r', hr', hdecodes'⟩ := h'.decodesTo (hsame.timeCount ▸ hi)
  rw [hsame.records, hr] at hr'
  exact ⟨r, hdecodes, Except.ok.inj hr' ▸ hdecodes'⟩

/-- The content decides about every byte that belongs to no stored element. -/
theorem getElem?_congr (h : s.Opened limits path bytes) (h' : t.Opened limits' path' bytes')
    (hsame : t.SameContent s) (hcoding : t.coding = s.coding) {p : Nat} (hp : ¬s.IsPayload p) :
    bytes'[p]? = bytes[p]? := by
  rcases Nat.lt_or_ge p s.header.totalLength with hfront | hbody
  · have htake : bytes'.take s.header.totalLength = bytes.take s.header.totalLength := by
      rw [h.take_totalLength, ← hsame.header, h'.take_totalLength,
        hsame.entries_eq hcoding]
    rw [← List.getElem?_take_of_lt hfront, htake, List.getElem?_take_of_lt hfront]
  · rw [h.getElem?_body hbody, h'.getElem?_body (hsame.header ▸ hbody), hsame.header,
      h.recordLength_congr h' hsame]
    have hgrid : TimeIndex.markerLength ≤ (p - s.header.totalLength) % s.recordLength →
        ((p - s.header.totalLength) % s.recordLength - TimeIndex.markerLength) %
          s.table.rowLength < Field.grid.diskSize := by
      intro hmarker
      exact Nat.lt_of_not_le fun hcell => hp ⟨hbody, hmarker, hcell⟩
    rw [frames, frames, hsame.timeCount, List.getElem?_map, List.getElem?_map]
    by_cases hi : (p - s.header.totalLength) / s.recordLength < s.timeCount
    · obtain ⟨r, hdecodes, hdecodes'⟩ := h.exists_decodesTo h' hsame hi
      have htimeStep := hdecodes'.timeStep.symm.trans hdecodes.timeStep
      have hgrids := hdecodes'.grids_eq.trans hdecodes.grids_eq.symm
      have hfits := t.fits_frameAt ((p - s.header.totalLength) / s.recordLength)
      rw [hsame.table, hsame.header] at hfits
      rw [List.getElem?_range hi]
      exact hfits.getElem?_encode_eq (s.fits_frameAt _) htimeStep hgrids hgrid
    · have hnone : (List.range s.timeCount)[(p - s.header.totalLength) / s.recordLength]? = none :=
        List.getElem?_eq_none (by simpa using hi)
      rw [hnone]
      rfl

theorem storable (h : s.Opened limits path bytes) {e : FieldEntry} (he : e ∈ s.entries) :
    e.Storable s.header.version :=
  h.fieldHeader.1.storable e he

theorem frame_eq (h : s.Opened limits path bytes) (hversion : s.header.version = .three) {f : Frame}
    (hfits : f.Fits s.table s.header.siteCount.toNat) {r : Record}
    (hdecodes : f.DecodesTo s.header s.entries r) : r.frame = f := by
  have hstorable : ∀ e ∈ s.entries, e.Storable .three := fun e he => hversion ▸ h.storable he
  have hdeclared : s.table.declared = s.entries.map (·.declaration .three) := by
    rw [← hversion]
    exact h.fieldHeader.1.declared
  refine hdecodes.frame_eq hstorable ?_
  rw [← hdeclared]
  exact hfits.cellsFit

theorem coding_eq (h : s.Opened limits path bytes) (hversion : s.header.version = .three) :
    s.coding = .absolute := by
  have hcoding := h.fieldHeader.1.coding
  rwa [hversion] at hcoding

theorem bytes_congr (h : s.Opened limits path bytes) (h' : t.Opened limits' path' bytes')
    (hsame : t.SameContent s) (hversion : s.header.version = .three) : bytes' = bytes := by
  have hversion' : t.header.version = .three := hsame.header ▸ hversion
  have hcoding : t.coding = s.coding := by rw [h.coding_eq hversion, h'.coding_eq hversion']
  have hframes : t.frames = s.frames := by
    rw [frames, frames, hsame.timeCount]
    apply List.map_congr_left
    intro i hi
    obtain ⟨r, hdecodes, hdecodes'⟩ := h.exists_decodesTo h' hsame (List.mem_range.mp hi)
    rw [← h'.frame_eq hversion' (t.fits_frameAt i) hdecodes',
      ← h.frame_eq hversion (s.fits_frameAt i) hdecodes]
  rw [h'.eq_encode, h.eq_encode, hframes, hsame.header, hsame.entries_eq hcoding]

end Opened

/-- Frame `f` is the record of the file at a position. Where values are stored as they are
in memory it is written from the decoded record. -/
structure HoldsFrame (s : Series) (i : Nat) (f : Frame) : Prop where
  fits : f.Fits s.table s.header.siteCount.toNat
  timeStep_eq : s.timeStepAt i = .ok f.timeStep
  decoded : ∃ record, s.lookupByIndex i = .ok record ∧
    f.DecodesTo s.header s.entries record ∧ (s.header.version = .three → f = record.frame)

/-- The bytes are the headers of the file and one frame for each of its time steps. -/
structure WrittenAs (s : Series) (bytes : Bytes) (frames : List Frame) : Prop where
  bytes_eq : bytes = s.header.encode ++ s.entries.flatMap FieldEntry.encode ++
    frames.flatMap Frame.encode
  length_entries :
    (s.entries.flatMap FieldEntry.encode).length = s.header.fieldHeaderLength.toNat
  length_frames : frames.length = s.timeCount
  holdsFrame : ∀ i f, frames[i]? = some f → s.HoldsFrame i f

/-- The content of the file decides about the bytes of every file with this content. -/
structure Determines (s : Series) (bytes : Bytes) : Prop where
  bytes_eq : ∀ limits' path' bytes' t, load limits' path' (some bytes') = .ok t →
    t.SameContent s → s.header.version = .three → bytes' = bytes
  length_eq : ∀ limits' path' bytes' t, load limits' path' (some bytes') = .ok t →
    t.SameContent s → t.coding = s.coding → bytes'.length = bytes.length
  outside : ∀ limits' path' bytes' t, load limits' path' (some bytes') = .ok t →
    t.SameContent s → t.coding = s.coding →
      ∀ p : Nat, ¬s.IsPayload p → bytes'[p]? = bytes[p]?

namespace Opened

variable {limits : Limits} {path : String} {bytes : Bytes} {s : Series}

theorem holdsFrame (h : s.Opened limits path bytes) {i : Nat} (hi : i < s.timeCount) :
    s.HoldsFrame i (s.frameAt i) := by
  obtain ⟨record, hlookup, hdecodes⟩ := h.decodesTo hi
  refine ⟨s.fits_frameAt i, h.timeStepAt_eq hi, record, hlookup, hdecodes, ?_⟩
  intro hversion
  exact (h.frame_eq hversion (s.fits_frameAt i) hdecodes).symm

theorem writtenAs (h : s.Opened limits path bytes) : s.WrittenAs bytes s.frames where
  bytes_eq := h.eq_encode
  length_entries := h.length_flatMap_encode_entries
  length_frames := s.length_frames
  holdsFrame := by
    intro i f hf
    have hi : i < s.timeCount := s.length_frames ▸ (List.getElem?_eq_some_iff.mp hf).1
    rw [getElem?_frames hi] at hf
    exact Option.some.inj hf ▸ h.holdsFrame hi

theorem determines (h : s.Opened limits path bytes) : s.Determines bytes where
  bytes_eq := fun _ _ _ _ ht hsame => h.bytes_congr (load_eq_ok_iff.mp ht) hsame
  length_eq := fun _ _ _ _ ht hsame _ => h.length_congr (load_eq_ok_iff.mp ht) hsame
  outside := fun _ _ _ _ ht hsame hcoding _ hp =>
    h.getElem?_congr (load_eq_ok_iff.mp ht) hsame hcoding hp

end Opened

/-- An accepted file is what its content is written to: the main header, the
entries of the field header, and one record for each time step. The content
decides about all bytes in version three, and in version four about all that
belong to no stored element. -/
theorem load_canonical {limits : Limits} {path : String} {bytes : Bytes} {s : Series}
    (h : load limits path (some bytes) = .ok s) :
    (∃ frames, s.WrittenAs bytes frames) ∧ s.Determines bytes := by
  have hopened := load_eq_ok_iff.mp h
  exact ⟨⟨s.frames, hopened.writtenAs⟩, hopened.determines⟩

theorem load_canonical_sample :
    ∃ s, load {} "flow.xtr" (some (Recording.sample .three).encode) = .ok s ∧
      ∃ frames : List Frame,
        s.bytes = s.header.encode ++ s.entries.flatMap FieldEntry.encode ++
          frames.flatMap Frame.encode ∧
        frames.length = 2 ∧
        ∀ path bytes t, load {} path (some bytes) = .ok t → t.SameContent s →
          bytes = (Recording.sample .three).encode := by
  have hwell := Recording.wellFormed_sample .three
  have hload := hwell.load_eq "flow.xtr"
  obtain ⟨⟨frames, hwritten⟩, hdetermines⟩ := load_canonical hload
  have hlength := hwritten.length_frames
  rw [hwell.timeCount_series] at hlength
  refine ⟨_, hload, frames, hwritten.bytes_eq, hlength, ?_⟩
  intro path bytes t ht hsame
  exact hdetermines.bytes_eq {} path bytes t ht hsame rfl

end Series

end LatticeSeries
