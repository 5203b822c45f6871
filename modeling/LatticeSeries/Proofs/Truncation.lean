import LatticeSeries.Proofs.Body

/-!
# Files that end early

A file may be cut anywhere. A cut inside a header or inside a record is noticed,
and reported with what was expected and what is there. A cut between two records
leaves a file with the time steps before it, which are decoded as they were.
-/
namespace LatticeSeries.Series

namespace Opened

variable {limits : Limits} {path : String} {bytes : Bytes} {s : Series}

section
variable (h : s.Opened limits path bytes) {length : Nat} (hlength : length ≤ bytes.length)
  (cutPath : String)

include h hlength

theorem load_take_of_lt_header (hcut : length < Header.length) :
    load limits cutPath (some (bytes.take length)) =
      .error (.truncated .mainHeader Header.length length) := by
  have htake : (bytes.take length).length = length := List.length_take_of_le hlength
  have hdecode : Header.decode (bytes.take length) = _ :=
    Header.decode_of_length_lt (by rwa [htake])
  rw [load_some_eq, h.limits_valid, Preamble.ofBytes, hdecode, htake]
  rfl

theorem load_take_of_lt_totalLength (hmain : Header.length ≤ length)
    (hcut : length < s.header.totalLength) :
    load limits cutPath (some (bytes.take length)) =
      .error (.corruptHeader (.fieldHeaderCut (s.header.totalLength - Header.length)
        (length - Header.length))) := by
  have hheader : Header.decode (bytes.take length) = .ok s.header := by
    rw [Header.decode_take (Nat.le_trans hmain hlength) hmain, h.header]
  have hrest : ((bytes.take length).drop Header.length).length = length - Header.length := by
    rw [List.length_drop, List.length_take_of_le hlength]
  have hdeclared : s.header.totalLength - Header.length = s.header.fieldHeaderLength.toNat :=
    Nat.add_sub_cancel_left Header.length _
  have hfields : FieldHeader.decode s.header limits ((bytes.take length).drop Header.length) = _ :=
    FieldHeader.decode_of_length_lt (by omega)
  rw [load_some_eq, h.limits_valid, Preamble.ofBytes, hheader, ok_bind, h.within, ok_bind, hfields,
    hrest, hdeclared]
  rfl

theorem load_take_of_residual (hheaders : s.header.totalLength ≤ length)
    (hresidual : (length - s.header.totalLength) % s.recordLength ≠ 0) :
    load limits cutPath (some (bytes.take length)) =
      .error (.corruptBody (length - s.header.totalLength) s.recordLength
        ((length - s.header.totalLength) % s.recordLength)) := by
  have htake : (bytes.take length).length = length := List.length_take_of_le hlength
  have hsame : (bytes.take length).take s.header.totalLength =
      bytes.take s.header.totalLength := by
    rw [List.take_take, Nat.min_eq_left hheaders]
  rw [h.load_eq_openBody hsame (by rwa [htake])]
  refine map_eq_error_iff.mpr ?_
  have hbuild : TimeIndex.build (bytes.take length) s.header.totalLength s.recordLength = _ :=
    TimeIndex.build_of_residual h.markerLength_le (by rwa [htake]) (by rwa [htake])
  rwa [htake] at hbuild

end

/-- A cut between two records leaves those before it. -/
theorem take_eq_withFrames (h : s.Opened limits path bytes) (count : Nat) :
    bytes.take (s.header.totalLength + count * s.recordLength) =
      s.withFrames (s.frames.take count) := by
  rw [List.take_add, h.drop_totalLength, withFrames, h.bytes_eq,
    take_flatMap_of_length fun f hf => h.length_encode_of_mem_frames hf]

theorem exists_load_take (h : s.Opened limits path bytes) (cutPath : String) (count : Nat) :
    ∃ t, load limits cutPath (some (bytes.take (s.header.totalLength + count * s.recordLength))) =
      .ok t ∧ t.SameHeaders s ∧ t.frames = s.frames.take count := by
  have hascending : ((s.frames.take count).map (·.timeStep)).Pairwise (· < ·) := by
    rw [List.map_take, ← h.times_eq]
    exact s.ascending_times.sublist (List.take_sublist _ _)
  rw [h.take_eq_withFrames]
  exact h.exists_load_withFrames (fun f hf => fits_of_mem_frames (List.mem_of_mem_take hf))
    hascending

end Opened

/-- The second file has the headers of the first and its time steps up to a number, each
decoded as it was. -/
structure Keeps (s : Series) (count : Nat) (t : Series) : Prop where
  sameHeaders : t.SameHeaders s
  times_eq : t.times = s.times.take count
  timeCount_eq : t.timeCount = count
  lookup_before : ∀ i < count, t.lookupByIndex i = s.lookupByIndex i
  lookup_outside : ∀ i, count ≤ i → t.lookupByIndex i = .error (.indexOutOfRange i count)

theorem Opened.keeps {limits : Limits} {path path' : String} {bytes bytes' : Bytes}
    {s t : Series} (hs : s.Opened limits path bytes) (ht : t.Opened limits path' bytes')
    (hsame : t.SameHeaders s) {count : Nat} (hcount : count ≤ s.timeCount)
    (hframes : t.frames = s.frames.take count) : Keeps s count t := by
  have htimeCount : t.timeCount = count := by
    rw [← length_frames, hframes, List.length_take_of_le (by rwa [length_frames])]
  refine ⟨hsame, ?_, htimeCount, ?_, ?_⟩
  · rw [ht.times_eq, hframes, List.map_take, ← hs.times_eq]
  · intro i hi
    have hframe : s.frames[i]? = some (s.frameAt i) :=
      getElem?_frames (Nat.lt_of_lt_of_le hi hcount)
    refine ht.lookupByIndex_congr hs hsame ?_ hframe
    rw [hframes, List.getElem?_take_of_lt hi, hframe]
  · intro i hi
    rw [← htimeCount] at hi ⊢
    exact lookupByIndex_of_le hi

/-- What becomes of a file that is cut to a length. Inside the main header, the field
header or a record the cut is reported with the bytes that are there. Between two records
it leaves a file with the time steps before the cut. -/
structure CutTo (limits : Limits) (path : String) (bytes : Bytes) (s : Series) (length : Nat) :
    Prop where
  mainHeader : length < Header.length →
    load limits path (some (bytes.take length)) =
      .error (.truncated .mainHeader Header.length length)
  fieldHeader : Header.length ≤ length → length < s.header.totalLength →
    load limits path (some (bytes.take length)) = .error (.corruptHeader
      (.fieldHeaderCut (s.header.totalLength - Header.length) (length - Header.length)))
  insideRecord : s.header.totalLength ≤ length →
    (length - s.header.totalLength) % s.recordLength ≠ 0 →
    load limits path (some (bytes.take length)) = .error (.corruptBody
      (length - s.header.totalLength) s.recordLength
      ((length - s.header.totalLength) % s.recordLength))
  betweenRecords : s.header.totalLength ≤ length →
    (length - s.header.totalLength) % s.recordLength = 0 →
    ∃ t, load limits path (some (bytes.take length)) = .ok t ∧
      Keeps s ((length - s.header.totalLength) / s.recordLength) t

/-- However a file that opens is cut, the cut is noticed or does no harm. -/
theorem load_take {limits : Limits} {path : String} {bytes : Bytes} {s : Series}
    (h : load limits path (some bytes) = .ok s) {length : Nat} (hlength : length ≤ bytes.length)
    (cutPath : String) : CutTo limits cutPath bytes s length := by
  have hs : s.Opened limits path bytes := load_eq_ok_iff.mp h
  refine ⟨hs.load_take_of_lt_header hlength cutPath, hs.load_take_of_lt_totalLength hlength cutPath,
    hs.load_take_of_residual hlength cutPath, ?_⟩
  intro hheaders hresidual
  generalize hcount : (length - s.header.totalLength) / s.recordLength = count
  have hbody : count * s.recordLength = length - s.header.totalLength := by
    rw [← hcount]
    exact Nat.div_mul_cancel (Nat.dvd_of_mod_eq_zero hresidual)
  have hwhole : length = s.header.totalLength + count * s.recordLength := by
    rw [hbody]
    exact (Nat.add_sub_of_le hheaders).symm
  have hle : count ≤ s.timeCount := by
    refine Nat.le_of_mul_le_mul_right ?_ hs.recordLength_pos
    have := hs.length_eq
    omega
  obtain ⟨t, ht, hsame, hframes⟩ := hs.exists_load_take cutPath count
  rw [← hwhole] at ht
  exact ⟨t, ht, hs.keeps (load_eq_ok_iff.mp ht) hsame hle hframes⟩

theorem load_take_sample :
    let file := (Recording.sample .four).encode
    load {} "cut.xtr" (some (file.take 59)) = .error (.truncated .mainHeader 60 59) ∧
      load {} "cut.xtr" (some (file.take 60)) = .error (.corruptHeader (.fieldHeaderCut 24 0)) ∧
      load {} "cut.xtr" (some (file.take 91)) = .error (.corruptBody 7 48 7) ∧
      ∃ t, load {} "cut.xtr" (some (file.take 132)) = .ok t ∧ t.times = [5] ∧
        t.lookupByIndex 0 = .ok (Recording.sampleRecord 5 1001) ∧
        t.lookupByIndex 1 = .error (.indexOutOfRange 1 1) := by
  intro file
  have hwell := Recording.wellFormed_sample .four
  have hload := hwell.load_eq "flow.xtr"
  have hlength : file.length = 180 := by decide +kernel
  have htotal : (hwell.series "flow.xtr").header.totalLength = 84 :=
    show (Recording.sample .four).header.totalLength = 84 by decide +kernel
  have hrecord : (hwell.series "flow.xtr").recordLength = 48 :=
    show (Recording.sample .four).recordLength = 48 by decide +kernel
  have htimes : (hwell.series "flow.xtr").times = [5, 9] := hwell.times_series _
  have hmain := (load_take hload (show 59 ≤ file.length by omega) "cut.xtr").mainHeader
  have hfields := (load_take hload (show 60 ≤ file.length by omega) "cut.xtr").fieldHeader
  have hinside := (load_take hload (show 91 ≤ file.length by omega) "cut.xtr").insideRecord
  have hbetween := (load_take hload (show 132 ≤ file.length by omega) "cut.xtr").betweenRecords
  rw [htotal] at hfields
  rw [htotal, hrecord] at hinside hbetween
  obtain ⟨t, ht, hkeeps⟩ := hbetween (by decide) (by decide)
  have hprefix := hkeeps.times_eq
  rw [htimes] at hprefix
  have hlookup := (Recording.lookup_sampleRecord "flow.xtr" (i := 0) rfl).1
  exact ⟨hmain (by decide), hfields (by decide) (by decide), hinside (by decide) (by decide),
    t, ht, hprefix, (hkeeps.lookup_before 0 (by decide)).trans hlookup,
    hkeeps.lookup_outside 1 (by decide)⟩

end LatticeSeries.Series
