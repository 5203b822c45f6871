import LatticeSeries.Proofs.Decoding
import LatticeSeries.Proofs.HeaderCodec
import LatticeSeries.Proofs.IndexBuild
import LatticeSeries.Proofs.Search

/-!
# What opening a file establishes

An opened file is described once, stage by stage. Everything that is said about
open files afterwards follows from this description: how the bytes divide into
headers and records, that each record is whole, and which record a position
stands for.
-/
namespace LatticeSeries.Series

/-- The file with this content was opened, with this result. -/
structure Opened (limits : Limits) (path : String) (bytes : Bytes) (s : Series) : Prop where
  limits_valid : limits.validate = .ok ()
  path_eq : s.path = path
  bytes_eq : s.bytes = bytes
  header : Header.decode bytes = .ok s.header
  within : checkLimits limits s.header = .ok ()
  fields : FieldHeader.decode s.header limits (bytes.drop Header.length) = .ok ⟨s.table, s.coding⟩
  recordLength_eq : s.recordLength =
    s.table.rowLength * s.header.siteCount.toNat + TimeIndex.markerLength
  recordLength_lt : s.recordLength < UInt64.size
  index : TimeIndex.build bytes s.header.totalLength s.recordLength = .ok s.index

theorem recordLengthOf_eq_ok_iff {table : FieldTable} {header : Header} {length : Nat} :
    recordLengthOf table header = .ok length ↔
      length = table.rowLength * header.siteCount.toNat + TimeIndex.markerLength ∧
        length < UInt64.size := by
  unfold recordLengthOf
  dsimp only
  constructor
  · intro h
    split_ifs at h with hlt
    cases h
    exact ⟨rfl, hlt⟩
  · intro h
    rcases h with ⟨rfl, hlt⟩
    rw [if_pos hlt]

/-- The default limits are the greatest values that a header can hold. -/
theorem checkLimits_default (header : Header) : checkLimits {} header = .ok () := by
  have hsites := header.siteCount.toNat_lt
  have hfields := header.fieldCount.toNat_lt
  have hbytes := header.fieldHeaderLength.toNat_lt
  simp only [checkLimits, bind_eq_ok_iff, Limits.check_eq_ok_iff]
  exact ⟨(), Nat.le_of_lt_succ hsites, (), Nat.le_of_lt_succ hfields, Nat.le_of_lt_succ hbytes⟩

theorem load_eq_ok_iff {limits : Limits} {path : String} {bytes : Bytes} {s : Series} :
    load limits path (some bytes) = .ok s ↔ s.Opened limits path bytes := by
  simp only [load, ofBytes, bind_eq_ok_iff, mapError_eq_ok_iff, recordLengthOf_eq_ok_iff]
  constructor
  · intro h
    obtain ⟨u, hvalid, header, hheader, v, hwithin, fields, hfields, length, ⟨hlength, hlt⟩,
      index, hindex, h⟩ := h
    cases h
    exact ⟨hvalid, rfl, rfl, hheader, hwithin, hfields, hlength, hlt, hindex⟩
  · intro h
    rcases h with ⟨hvalid, hpath, hbytes, hheader, hwithin, hfields, hlength, hlt, hindex⟩
    refine ⟨(), hvalid, s.header, hheader, (), hwithin, ⟨s.table, s.coding⟩, hfields,
      s.recordLength, ⟨hlength, hlt⟩, s.index, hindex, ?_⟩
    subst hpath hbytes
    rfl

theorem exists_opened {limits : Limits} {path : String} {content? : Option Bytes} {s : Series}
    (h : load limits path content? = .ok s) : ∃ bytes, s.Opened limits path bytes := by
  cases content? with
  | none =>
    obtain ⟨u, -, hmissing⟩ := bind_eq_ok_iff.mp h
    cases hmissing
  | some bytes => exact ⟨bytes, load_eq_ok_iff.mp h⟩

theorem timeStepAt_of_le {s : Series} {i : Nat} (hi : s.timeCount ≤ i) :
    s.timeStepAt i = .error (.indexOutOfRange i s.timeCount) := by
  have hget : s.index.get i = .error (.indexOutOfRange i s.timeCount) := s.index.get_of_le hi
  rw [timeStepAt, hget]
  rfl

theorem lookupByIndex_of_le {s : Series} {i : Nat} (hi : s.timeCount ≤ i) :
    s.lookupByIndex i = .error (.indexOutOfRange i s.timeCount) := by
  have hget : s.index.get i = .error (.indexOutOfRange i s.timeCount) := s.index.get_of_le hi
  rw [lookupByIndex, hget]
  rfl

def recordBytes (s : Series) (i : Nat) : Bytes :=
  (s.bytes.drop (s.header.totalLength + i * s.recordLength)).take s.recordLength

def frameAt (s : Series) (i : Nat) : Frame :=
  Frame.decode s.table s.header.siteCount.toNat (s.recordBytes i)

def frames (s : Series) : List Frame := (List.range s.timeCount).map s.frameAt

theorem fits_frameAt (s : Series) (i : Nat) :
    (s.frameAt i).Fits s.table s.header.siteCount.toNat :=
  Frame.fits_decode _

theorem getElem?_frames {s : Series} {i : Nat} (hi : i < s.timeCount) :
    s.frames[i]? = some (s.frameAt i) := by
  rw [frames, List.getElem?_map, List.getElem?_range hi]
  rfl

theorem fits_of_mem_frames {s : Series} {f : Frame} (hf : f ∈ s.frames) :
    f.Fits s.table s.header.siteCount.toNat := by
  obtain ⟨i, -, rfl⟩ := List.mem_map.mp hf
  exact s.fits_frameAt i

@[simp] theorem length_frames (s : Series) : s.frames.length = s.timeCount := by
  rw [frames, List.length_map, List.length_range]

namespace Opened

variable {limits : Limits} {path : String} {bytes : Bytes} {s : Series}

theorem take_length (h : s.Opened limits path bytes) :
    bytes.take Header.length = s.header.encode :=
  (Header.decode_eq_ok_iff.mp h.header).2

theorem fieldHeader (h : s.Opened limits path bytes) :
    FieldHeader.MadeOf ⟨s.table, s.coding⟩ s.header.version s.entries ∧
      s.entries.length = s.header.fieldCount.toNat ∧
      (bytes.drop Header.length).take s.header.fieldHeaderLength.toNat =
        s.entries.flatMap FieldEntry.encode := by
  obtain ⟨-, es, hmade, hcount, -, htake⟩ := FieldHeader.decode_eq_ok_iff.mp h.fields
  have hentries : s.entries = es := hmade.entries_eq
  rw [hentries]
  exact ⟨hmade, hcount, htake⟩

theorem markerLength_le (h : s.Opened limits path bytes) :
    TimeIndex.markerLength ≤ s.recordLength := by
  rw [h.recordLength_eq]
  omega

theorem recordLength_pos (h : s.Opened limits path bytes) : 0 < s.recordLength :=
  Nat.lt_of_lt_of_le (by decide) h.markerLength_le

theorem length_encode_of_fits (h : s.Opened limits path bytes) {f : Frame}
    (hf : f.Fits s.table s.header.siteCount.toNat) : f.encode.length = s.recordLength := by
  rw [hf.length_encode, h.recordLength_eq]

theorem length_encode_of_mem_frames (h : s.Opened limits path bytes) {f : Frame}
    (hf : f ∈ s.frames) : f.encode.length = s.recordLength :=
  h.length_encode_of_fits (fits_of_mem_frames hf)

theorem totalLength_le (h : s.Opened limits path bytes) : s.header.totalLength ≤ bytes.length :=
  (TimeIndex.build_eq_ok_iff.mp h.index).2.1

theorem entries_eq (h : s.Opened limits path bytes) :
    s.index.entries = (TimeIndex.scan s.recordLength s.timeCount s.header.totalLength
      (bytes.drop s.header.totalLength)).toArray := by
  obtain ⟨-, -, -, hentries⟩ := TimeIndex.build_eq_ok_iff.mp h.index
  have hcount : s.timeCount = (bytes.length - s.header.totalLength) / s.recordLength := by
    rw [timeCount, TimeIndex.size, hentries]
    simp
  rw [hcount, hentries]

theorem length_eq (h : s.Opened limits path bytes) :
    bytes.length = s.header.totalLength + s.timeCount * s.recordLength := by
  obtain ⟨-, hle, hresidual, hentries⟩ := TimeIndex.build_eq_ok_iff.mp h.index
  have hcount : s.timeCount = (bytes.length - s.header.totalLength) / s.recordLength := by
    rw [timeCount, TimeIndex.size, hentries]
    simp
  have hbody : s.timeCount * s.recordLength = bytes.length - s.header.totalLength := by
    rw [hcount]
    exact Nat.div_mul_cancel (Nat.dvd_of_mod_eq_zero hresidual)
  omega

theorem record_le (h : s.Opened limits path bytes) {i : Nat} (hi : i < s.timeCount) :
    s.header.totalLength + i * s.recordLength + s.recordLength ≤ bytes.length := by
  have hlast : (i + 1) * s.recordLength ≤ s.timeCount * s.recordLength :=
    Nat.mul_le_mul_right s.recordLength hi
  rw [Nat.succ_mul] at hlast
  have := h.length_eq
  omega

theorem length_recordBytes (h : s.Opened limits path bytes) {i : Nat} (hi : i < s.timeCount) :
    (s.recordBytes i).length = s.recordLength := by
  have := h.record_le hi
  rw [recordBytes, h.bytes_eq, List.length_take, List.length_drop]
  omega

theorem getElem?_entries (h : s.Opened limits path bytes) {i : Nat} (hi : i < s.timeCount) :
    s.index.entries[i]? = some ⟨(s.frameAt i).timeStep,
      s.header.totalLength + i * s.recordLength⟩ := by
  rw [h.entries_eq, List.getElem?_toArray, TimeIndex.getElem?_scan hi, List.drop_drop, frameAt,
    Frame.decode, recordBytes, h.bytes_eq, List.take_take, Nat.min_eq_left h.markerLength_le]

theorem get_eq (h : s.Opened limits path bytes) {i : Nat} (hi : i < s.timeCount) :
    s.index.get i = .ok ⟨(s.frameAt i).timeStep,
      s.header.totalLength + i * s.recordLength⟩ := by
  simp only [TimeIndex.get, h.getElem?_entries hi]

theorem timeStepAt_eq (h : s.Opened limits path bytes) {i : Nat} (hi : i < s.timeCount) :
    s.timeStepAt i = .ok (s.frameAt i).timeStep := by
  rw [timeStepAt, h.get_eq hi]
  rfl

/-- The block of a record has the length that decoding asks for. -/
theorem length_block (h : s.Opened limits path bytes) {i : Nat} (hi : i < s.timeCount) :
    ((s.recordBytes i).drop TimeIndex.markerLength).length =
      s.table.rowLength * s.header.siteCount.toNat := by
  rw [List.length_drop, h.length_recordBytes hi, h.recordLength_eq, Nat.add_sub_cancel]

theorem lookupByIndex_eq (h : s.Opened limits path bytes) {i : Nat} (hi : i < s.timeCount) :
    s.lookupByIndex i = .ok (Record.ofRows s.coding s.table s.header (s.frameAt i).timeStep
      (pieces s.table.rowLength s.header.siteCount.toNat
        ((s.recordBytes i).drop TimeIndex.markerLength))) := by
  have hblock : (s.bytes.drop (s.header.totalLength + i * s.recordLength +
      TimeIndex.markerLength)).take (s.recordLength - TimeIndex.markerLength) =
        (s.recordBytes i).drop TimeIndex.markerLength := by
    rw [recordBytes, List.drop_take, List.drop_drop]
  rw [lookupByIndex, h.get_eq hi]
  change s.recordAt _ = _
  rw [recordAt, hblock, Record.ofBlock, if_pos (h.length_block hi)]

theorem decodesTo (h : s.Opened limits path bytes) {i : Nat} (hi : i < s.timeCount) :
    ∃ r, s.lookupByIndex i = .ok r ∧ (s.frameAt i).DecodesTo s.header s.entries r :=
  ⟨_, h.lookupByIndex_eq hi, h.fieldHeader.1.decodesTo_ofRows _ _ _⟩

theorem encode_frameAt (h : s.Opened limits path bytes) {i : Nat} (hi : i < s.timeCount) :
    (s.frameAt i).encode = s.recordBytes i := by
  apply Frame.encode_decode
  rw [h.length_recordBytes hi, h.recordLength_eq]

theorem drop_totalLength (h : s.Opened limits path bytes) :
    bytes.drop s.header.totalLength = s.frames.flatMap Frame.encode := by
  have hrecord : ∀ i ∈ List.range s.timeCount, (Frame.encode ∘ s.frameAt) i =
      ((bytes.drop s.header.totalLength).drop (i * s.recordLength)).take s.recordLength := by
    intro i hi
    rw [List.drop_drop, ← h.bytes_eq]
    exact h.encode_frameAt (List.mem_range.mp hi)
  have hbody : (bytes.drop s.header.totalLength).length = s.timeCount * s.recordLength := by
    rw [List.length_drop, h.length_eq, Nat.add_sub_cancel_left]
  rw [frames, List.flatMap_def, List.map_map, List.map_congr_left hrecord, map_range_eq_pieces,
    flatten_pieces, ← hbody, List.take_length]

theorem length_flatMap_encode_entries (h : s.Opened limits path bytes) :
    (s.entries.flatMap FieldEntry.encode).length = s.header.fieldHeaderLength.toNat := by
  have hle := h.totalLength_le
  rw [Header.totalLength] at hle
  rw [← h.fieldHeader.2.2, List.length_take, List.length_drop]
  omega

/-- The file is the encoding of what it was read as, and nothing else. -/
theorem eq_encode (h : s.Opened limits path bytes) :
    bytes = s.header.encode ++ s.entries.flatMap FieldEntry.encode ++
      s.frames.flatMap Frame.encode := by
  rw [← h.drop_totalLength, ← h.fieldHeader.2.2, ← h.take_length, ← List.take_add,
    ← Header.totalLength, List.take_append_drop]

end Opened

end LatticeSeries.Series
