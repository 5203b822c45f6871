import LatticeSeries.Proofs.Preamble

/-!
# The body of a file

Behind the headers of an open file, any records of its shape make a file again.
It opens exactly if the values of the time steps ascend, its time steps are those
of the records, and each of them is decoded from its own record alone.
-/
namespace LatticeSeries

/-- The records of a body are found again at every record length. -/
theorem Frame.map_decode_pieces {table : FieldTable} {siteCount : Nat} {fs : List Frame}
    (hfits : ∀ f ∈ fs, f.Fits table siteCount) :
    (pieces (table.rowLength * siteCount + TimeIndex.markerLength) fs.length
      (fs.flatMap encode)).map (decode table siteCount) = fs := by
  have hframe : ∀ f ∈ fs, (decode table siteCount ∘ encode) f = id f :=
    fun f hf => (hfits f hf).decode_encode
  rw [pieces_flatMap fun f hf => (hfits f hf).length_encode, List.map_map,
    List.map_congr_left hframe, List.map_id]

/-- Bodies of records of one shape have the same bytes only if they have the same records. -/
theorem Frame.eq_of_flatMap_encode {table : FieldTable} {siteCount : Nat} {fs gs : List Frame}
    (hf : ∀ f ∈ fs, f.Fits table siteCount) (hg : ∀ g ∈ gs, g.Fits table siteCount)
    (h : fs.flatMap encode = gs.flatMap encode) : fs = gs := by
  have hpos : 0 < table.rowLength * siteCount + TimeIndex.markerLength :=
    Nat.lt_of_lt_of_le (by decide) (Nat.le_add_left 8 _)
  -- A record is never empty, so the bytes determine how many there are.
  have hlength : fs.length = gs.length := by
    have hbytes := congrArg List.length h
    rw [length_flatMap_of_length fun f hmem => (hf f hmem).length_encode,
      length_flatMap_of_length fun g hmem => (hg g hmem).length_encode] at hbytes
    exact Nat.eq_of_mul_eq_mul_right hpos hbytes
  rw [← map_decode_pieces hf, hlength, h, map_decode_pieces hg]

namespace Series

/-- The record of a time step in this file. -/
def decodeFrame (s : Series) (f : Frame) : Record :=
  Record.ofRows s.coding s.table s.header f.timeStep
    (pieces s.table.rowLength s.header.siteCount.toNat (f.encode.drop TimeIndex.markerLength))

theorem SameHeaders.decodeFrame_eq {s t : Series} (h : s.SameHeaders t) (f : Frame) :
    s.decodeFrame f = t.decodeFrame f := by
  rw [decodeFrame, decodeFrame, h.header, h.table, h.coding]

def preamble (s : Series) : Preamble := ⟨s.header, ⟨s.table, s.coding⟩, s.recordLength⟩

/-- The headers of this file with the given records behind them. -/
def withFrames (s : Series) (fs : List Frame) : Bytes :=
  s.bytes.take s.header.totalLength ++ fs.flatMap Frame.encode

theorem withFrames_append (s : Series) (fs gs : List Frame) :
    s.withFrames (fs ++ gs) = s.withFrames fs ++ gs.flatMap Frame.encode := by
  rw [withFrames, withFrames, List.flatMap_append, List.append_assoc]

theorem ascending_times (s : Series) : s.times.Pairwise (· < ·) := s.index.ascending

namespace Opened

variable {limits : Limits} {path path' : String} {bytes bytes' : Bytes} {s t : Series}

theorem times_eq (h : s.Opened limits path bytes) : s.times = s.frames.map (·.timeStep) := by
  rw [times, TimeIndex.times, h.entries_eq, List.toList_toArray, h.drop_totalLength,
    ← s.length_frames]
  exact TimeIndex.map_timeStep_scan (fun f hf => h.length_encode_of_mem_frames hf)
    (fun f _ => f.take_encode) h.markerLength_le

/-- A time step is decoded from its own record alone. -/
theorem lookupByIndex_frame (h : s.Opened limits path bytes) {i : Nat} {f : Frame}
    (hf : s.frames[i]? = some f) : s.lookupByIndex i = .ok (s.decodeFrame f) := by
  have hi : i < s.timeCount := by
    rw [← s.length_frames]
    exact (List.getElem?_eq_some_iff.mp hf).1
  rw [getElem?_frames hi] at hf
  obtain rfl := Option.some.inj hf
  rw [h.lookupByIndex_eq hi, decodeFrame, h.encode_frameAt hi]

theorem lookupByIndex_congr (h : s.Opened limits path bytes) (h' : t.Opened limits path' bytes')
    (hsame : s.SameHeaders t) {i j : Nat} {f : Frame} (hi : s.frames[i]? = some f)
    (hj : t.frames[j]? = some f) : s.lookupByIndex i = t.lookupByIndex j := by
  rw [h.lookupByIndex_frame hi, h'.lookupByIndex_frame hj, hsame.decodeFrame_eq]

theorem ofBytes_preamble (h : s.Opened limits path bytes) :
    Preamble.ofBytes limits bytes = .ok s.preamble := by
  rw [Preamble.ofBytes, h.header, ok_bind, h.within, ok_bind, h.fields, ok_bind,
    recordLengthOf_eq_ok_iff.mpr ⟨h.recordLength_eq, h.recordLength_lt⟩]
  rfl

theorem length_preamble (h : s.Opened limits path bytes) :
    Preamble.length bytes = s.header.totalLength :=
  (Preamble.ofBytes_eq_ok h.ofBytes_preamble).1.symm

/-- A file with the headers of an open file is opened by indexing its body. -/
theorem load_eq_openBody (h : s.Opened limits path bytes)
    (htake : bytes'.take s.header.totalLength = bytes.take s.header.totalLength)
    (hlength : s.header.totalLength ≤ bytes'.length) :
    load limits path' (some bytes') = s.preamble.openBody path' bytes' := by
  have hpreamble : Preamble.ofBytes limits bytes' = .ok s.preamble := by
    rw [← h.ofBytes_preamble]
    rw [← h.length_preamble] at htake hlength
    exact Preamble.ofBytes_congr (h.length_preamble ▸ h.totalLength_le) hlength htake.symm
  rw [load_some_eq, h.limits_valid, hpreamble]
  rfl

theorem sameHeaders_of_load (h : s.Opened limits path bytes)
    (htake : bytes'.take s.header.totalLength = bytes.take s.header.totalLength)
    (hlength : s.header.totalLength ≤ bytes'.length)
    (ht : load limits path' (some bytes') = .ok t) : t.SameHeaders s := by
  rw [h.load_eq_openBody htake hlength] at ht
  have hs := load_eq_ok_iff.mpr h
  rw [h.load_eq_openBody rfl h.totalLength_le] at hs
  exact Preamble.sameHeaders_of_openBody ht hs

theorem length_take_totalLength (h : s.Opened limits path bytes) :
    (s.bytes.take s.header.totalLength).length = s.header.totalLength := by
  rw [h.bytes_eq, List.length_take_of_le h.totalLength_le]

theorem take_withFrames (h : s.Opened limits path bytes) (fs : List Frame) :
    (s.withFrames fs).take s.header.totalLength = bytes.take s.header.totalLength := by
  rw [withFrames, List.take_left' h.length_take_totalLength, h.bytes_eq]

theorem drop_withFrames (h : s.Opened limits path bytes) (fs : List Frame) :
    (s.withFrames fs).drop s.header.totalLength = fs.flatMap Frame.encode := by
  rw [withFrames, List.drop_left' h.length_take_totalLength]

theorem length_withFrames (h : s.Opened limits path bytes) (fs : List Frame) :
    (s.withFrames fs).length = s.header.totalLength + (fs.flatMap Frame.encode).length := by
  rw [withFrames, List.length_append, h.length_take_totalLength]

theorem eq_withFrames (h : s.Opened limits path bytes) : bytes = s.withFrames s.frames := by
  rw [withFrames, h.bytes_eq, ← h.drop_totalLength, List.take_append_drop]

section
variable (h : s.Opened limits path bytes) {fs : List Frame}
  (hfits : ∀ f ∈ fs, f.Fits s.table s.header.siteCount.toNat)

include h hfits

/-- Records behind the headers are indexed as they are. -/
theorem build_withFrames :
    TimeIndex.build (s.withFrames fs) s.header.totalLength s.recordLength =
      TimeIndex.ofEntries (TimeIndex.scan s.recordLength fs.length s.header.totalLength
        (fs.flatMap Frame.encode)) := by
  have hbody : (s.withFrames fs).length - s.header.totalLength = fs.length * s.recordLength := by
    rw [h.length_withFrames, Nat.add_sub_cancel_left]
    exact length_flatMap_of_length fun f hf => h.length_encode_of_fits (hfits f hf)
  have hheader : s.header.totalLength ≤ (s.withFrames fs).length :=
    h.length_withFrames fs ▸ Nat.le_add_right _ _
  have hresidual : ((s.withFrames fs).length - s.header.totalLength) % s.recordLength = 0 := by
    rw [hbody, Nat.mul_mod_left]
  rw [TimeIndex.build_of_whole h.markerLength_le hheader hresidual, hbody,
    Nat.mul_div_cancel _ h.recordLength_pos, h.drop_withFrames]

theorem map_timeStep_scan_withFrames :
    (TimeIndex.scan s.recordLength fs.length s.header.totalLength (fs.flatMap Frame.encode)).map
      (·.timeStep) = fs.map (·.timeStep) :=
  TimeIndex.map_timeStep_scan (fun f hf => h.length_encode_of_fits (hfits f hf))
    (fun f _ => f.take_encode) h.markerLength_le

theorem load_withFrames : load limits path' (some (s.withFrames fs)) =
    (TimeIndex.ofEntries (TimeIndex.scan s.recordLength fs.length s.header.totalLength
      (fs.flatMap Frame.encode))).map (s.preamble.series path' (s.withFrames fs)) := by
  rw [h.load_eq_openBody (h.take_withFrames fs) (h.length_withFrames fs ▸ Nat.le_add_right _ _),
    ← h.build_withFrames hfits]
  rfl

/-- Records with ascending values behind the headers of an open file are a file again. -/
theorem exists_load_withFrames (hascending : (fs.map (·.timeStep)).Pairwise (· < ·)) :
    ∃ t, load limits path' (some (s.withFrames fs)) = .ok t ∧ t.SameHeaders s ∧ t.frames = fs := by
  rw [← h.map_timeStep_scan_withFrames hfits] at hascending
  obtain ⟨index, hindex, -⟩ := TimeIndex.ofEntries_of_ascending hascending
  have hload : load limits path' (some (s.withFrames fs)) =
      .ok (s.preamble.series path' (s.withFrames fs) index) := by
    rw [h.load_withFrames hfits, hindex]
    rfl
  refine ⟨_, hload, ⟨rfl, rfl, rfl, rfl⟩, ?_⟩
  have hbody := (load_eq_ok_iff.mp hload).drop_totalLength
  exact Frame.eq_of_flatMap_encode (fun _ hf => fits_of_mem_frames hf) hfits
    (hbody.symm.trans (h.drop_withFrames fs))

/-- The first record whose value does not exceed the one before it is reported. -/
theorem load_withFrames_of_descent {before after : List Frame} {a b : Frame}
    (hfs : fs = before ++ a :: b :: after)
    (hascending : ((before ++ [a]).map (·.timeStep)).Pairwise (· < ·))
    (hdescent : b.timeStep ≤ a.timeStep) :
    load limits path' (some (s.withFrames fs)) =
      .error (.unorderedTimeSteps (before.length + 1) a.timeStep b.timeStep) := by
  have hmarkers := h.map_timeStep_scan_withFrames hfits
  rw [h.load_withFrames hfits, map_eq_error_iff]
  rw [hfs, List.map_append, List.map_cons, List.map_cons] at hmarkers
  obtain ⟨es, rest, hscan, hes, hrest⟩ := List.map_eq_append_iff.mp hmarkers
  obtain ⟨x, rest, rfl, hx, hrest⟩ := List.map_eq_cons_iff.mp hrest
  obtain ⟨y, rest, rfl, hy, -⟩ := List.map_eq_cons_iff.mp hrest
  have hfirst : ((es ++ [x]).map (·.timeStep)).Pairwise (· < ·) := by
    rw [List.map_append, hes, List.map_singleton, hx]
    rwa [List.map_append] at hascending
  have hnot : ¬x.timeStep < y.timeStep := by
    rw [hx, hy]
    exact UInt64.not_lt.mpr hdescent
  have hlength : es.length = before.length := by
    rw [← List.length_map (f := (·.timeStep)), hes, List.length_map]
  refine TimeIndex.ofEntries_eq_error_iff.mpr ⟨es.length + 1, x.timeStep, y.timeStep, ?_, ?_⟩
  · rw [hfs, hscan, TimeEntry.firstDescent?_of_descent hfirst hnot, Nat.zero_add]
  · rw [hlength, hx, hy]

end

end Opened

end Series

end LatticeSeries
