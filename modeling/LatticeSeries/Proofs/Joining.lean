import LatticeSeries.Proofs.Body
import Mathlib.Data.List.Chain

/-!
# Joining files

Two files with the same headers can be joined where the values of the second
continue those of the first: the body of the second is appended to the first. The
joined file has the time steps of both, and what each of them decodes to does not
change.
-/
namespace LatticeSeries.Series

/-- The values of two files ascend as a whole if they do where the files meet. -/
theorem ascending_append {s t : Series}
    (hseam : ∀ last ∈ s.times.getLast?, ∀ first ∈ t.times.head?, last < first) :
    (s.times ++ t.times).Pairwise (· < ·) := by
  -- Values ascend throughout once neighbours do.
  have : Trans (α := UInt64) (β := UInt64) (γ := UInt64) (· < ·) (· < ·) (· < ·) :=
    ⟨UInt64.lt_trans⟩
  rw [← List.isChain_iff_pairwise, List.isChain_append]
  exact ⟨s.ascending_times.isChain, t.ascending_times.isChain, hseam⟩

namespace Opened

variable {limits : Limits} {path path' : String} {bytes bytes' : Bytes} {s t : Series}

/-- Joined files are the headers of the first with the records of both. -/
theorem append_eq_withFrames (hs : s.Opened limits path bytes)
    (ht : t.Opened limits path' bytes') :
    bytes ++ bytes'.drop t.header.totalLength = s.withFrames (s.frames ++ t.frames) := by
  rw [withFrames_append, ← hs.eq_withFrames, ht.drop_totalLength]

theorem map_timeStep_append (hs : s.Opened limits path bytes)
    (ht : t.Opened limits path' bytes') :
    (s.frames ++ t.frames).map (·.timeStep) = s.times ++ t.times := by
  rw [List.map_append, ← hs.times_eq, ← ht.times_eq]

section
variable (hs : s.Opened limits path bytes) (ht : t.Opened limits path' bytes')
  (hheaders : bytes.take s.header.totalLength = bytes'.take t.header.totalLength)

include hs ht hheaders

theorem totalLength_eq_of_take : t.header.totalLength = s.header.totalLength := by
  have hlength := congrArg List.length hheaders
  rw [List.length_take, List.length_take, Nat.min_eq_left hs.totalLength_le,
    Nat.min_eq_left ht.totalLength_le] at hlength
  exact hlength.symm

theorem sameHeaders_of_take : t.SameHeaders s := by
  have htotal := hs.totalLength_eq_of_take ht hheaders
  rw [htotal] at hheaders
  exact hs.sameHeaders_of_load hheaders.symm (htotal ▸ ht.totalLength_le) (load_eq_ok_iff.mpr ht)

theorem fits_append : ∀ f ∈ s.frames ++ t.frames, f.Fits s.table s.header.siteCount.toNat := by
  intro f hf
  have hsame := hs.sameHeaders_of_take ht hheaders
  rcases List.mem_append.mp hf with hf | hf
  · exact fits_of_mem_frames hf
  · rw [← hsame.header, ← hsame.table]
    exact fits_of_mem_frames hf

variable (joinedPath : String)

theorem exists_load_append
    (hseam : ∀ last ∈ s.times.getLast?, ∀ first ∈ t.times.head?, last < first) :
    ∃ u, load limits joinedPath (some (bytes ++ bytes'.drop t.header.totalLength)) = .ok u ∧
      u.SameHeaders s ∧ u.frames = s.frames ++ t.frames := by
  have hascending := ascending_append hseam
  rw [← hs.map_timeStep_append ht] at hascending
  rw [hs.append_eq_withFrames ht]
  exact hs.exists_load_withFrames (hs.fits_append ht hheaders) hascending

theorem load_append_of_descent {last first : UInt64} (hlast : last ∈ s.times.getLast?)
    (hfirst : first ∈ t.times.head?) (hle : first ≤ last) :
    load limits joinedPath (some (bytes ++ bytes'.drop t.header.totalLength)) =
      .error (.unorderedTimeSteps s.timeCount last first) := by
  rw [hs.times_eq, List.getLast?_map] at hlast
  rw [ht.times_eq, List.head?_map] at hfirst
  obtain ⟨a, ha, rfl⟩ := Option.map_eq_some_iff.mp hlast
  obtain ⟨b, hb, rfl⟩ := Option.map_eq_some_iff.mp hfirst
  obtain ⟨before, hbefore⟩ := List.getLast?_eq_some_iff.mp ha
  obtain ⟨after, hafter⟩ := List.head?_eq_some_iff.mp hb
  have hcount : s.timeCount = before.length + 1 := by
    rw [← length_frames, hbefore, List.length_append, List.length_singleton]
  have hjoined : s.frames ++ t.frames = before ++ a :: b :: after := by
    rw [hbefore, hafter, List.append_assoc, List.singleton_append]
  have hascending : ((before ++ [a]).map (·.timeStep)).Pairwise (· < ·) := by
    rw [← hbefore, ← hs.times_eq]
    exact s.ascending_times
  rw [hs.append_eq_withFrames ht, hcount]
  exact hs.load_withFrames_of_descent (hs.fits_append ht hheaders) hjoined hascending hle

/-- A record that lies in both files is decoded to the same in both. -/
theorem lookupByIndex_of_recordBytes {i j : Nat} (hi : i < s.timeCount) (hj : j < t.timeCount)
    (hrecord : s.recordBytes i = t.recordBytes j) : s.lookupByIndex i = t.lookupByIndex j := by
  have hsame := hs.sameHeaders_of_take ht hheaders
  have hframe : t.frameAt j = s.frameAt i := by
    rw [frameAt, frameAt, hrecord, hsame.header, hsame.table]
  exact hs.lookupByIndex_congr ht hsame.symm (getElem?_frames hi) (hframe ▸ getElem?_frames hj)

end

end Opened

/-- The third file has the time steps of the first and behind them those of the second, each
decoded as it was. -/
structure Joins (s t u : Series) : Prop where
  sameHeaders : u.SameHeaders s
  times_eq : u.times = s.times ++ t.times
  lookup_first : ∀ i < s.timeCount, u.lookupByIndex i = s.lookupByIndex i
  lookup_second : ∀ i, s.timeCount ≤ i → i < s.timeCount + t.timeCount →
    u.lookupByIndex i = t.lookupByIndex (i - s.timeCount)
  lookup_outside : ∀ i, s.timeCount + t.timeCount ≤ i →
    u.lookupByIndex i = .error (.indexOutOfRange i (s.timeCount + t.timeCount))

theorem Opened.joins {limits : Limits} {path path' path'' : String} {bytes bytes' bytes'' : Bytes}
    {s t u : Series} (hs : s.Opened limits path bytes) (ht : t.Opened limits path' bytes')
    (hu : u.Opened limits path'' bytes'') (hsame : u.SameHeaders s)
    (hsame' : u.SameHeaders t) (hframes : u.frames = s.frames ++ t.frames) :
    Joins s t u where
  sameHeaders := hsame
  times_eq := by rw [hu.times_eq, hframes, hs.map_timeStep_append ht]
  lookup_first := by
    intro i hi
    refine hu.lookupByIndex_congr hs hsame ?_ (getElem?_frames hi)
    rw [hframes, List.getElem?_append_left (by rwa [length_frames]), getElem?_frames hi]
  lookup_second := by
    intro i hle hlt
    have hj : i - s.timeCount < t.timeCount := by omega
    refine hu.lookupByIndex_congr ht hsame' ?_ (getElem?_frames hj)
    rw [hframes, List.getElem?_append_right (by rwa [length_frames]), length_frames,
      getElem?_frames hj]
  lookup_outside := by
    intro i hi
    have hcount : u.timeCount = s.timeCount + t.timeCount := by
      rw [← length_frames, hframes, List.length_append, length_frames, length_frames]
    rw [← hcount] at hi ⊢
    exact lookupByIndex_of_le hi

/-- What becomes of the first file with the body of the second appended to it. It opens
unless the values do not ascend where the files meet. No record depends on the bytes of
another one. -/
structure Appends (limits : Limits) (path : String) (joined : Bytes) (s t : Series) : Prop where
  joins : (∀ last ∈ s.times.getLast?, ∀ first ∈ t.times.head?, last < first) →
    ∃ u, load limits path (some joined) = .ok u ∧ Joins s t u
  descends : ∀ last ∈ s.times.getLast?, ∀ first ∈ t.times.head?, first ≤ last →
    load limits path (some joined) = .error (.unorderedTimeSteps s.timeCount last first)
  independent : ∀ i < s.timeCount, ∀ j < t.timeCount, s.recordBytes i = t.recordBytes j →
    s.lookupByIndex i = t.lookupByIndex j

/-- Files with the same headers are joined by appending the body of the second to
the first. -/
theorem load_join {limits : Limits} {path path' : String} {bytes bytes' : Bytes} {s t : Series}
    (hs : load limits path (some bytes) = .ok s) (ht : load limits path' (some bytes') = .ok t)
    (hheaders : bytes.take s.header.totalLength = bytes'.take t.header.totalLength)
    (joinedPath : String) :
    Appends limits joinedPath (bytes ++ bytes'.drop t.header.totalLength) s t := by
  replace hs := load_eq_ok_iff.mp hs
  replace ht := load_eq_ok_iff.mp ht
  refine ⟨?joined, fun last hlast first hfirst => hs.load_append_of_descent ht hheaders joinedPath
    hlast hfirst, fun i hi j hj => hs.lookupByIndex_of_recordBytes ht hheaders hi hj⟩
  case joined =>
    intro hseam
    obtain ⟨u, hu, hsame, hframes⟩ := hs.exists_load_append ht hheaders joinedPath hseam
    have hsame' : u.SameHeaders t := hsame.trans (hs.sameHeaders_of_take ht hheaders).symm
    exact ⟨u, hu, hs.joins ht (load_eq_ok_iff.mp hu) hsame hsame' hframes⟩

/-- The two time steps of a recording, in files of their own. -/
theorem load_join_sample :
    let sample := Recording.sample .four
    let first : Recording := { sample with frames := sample.frames.take 1 }
    let second : Recording := { sample with frames := sample.frames.drop 1 }
    let length := sample.header.totalLength
    (∃ s t u, load {} "first.xtr" (some first.encode) = .ok s ∧
      load {} "second.xtr" (some second.encode) = .ok t ∧
      load {} "flow.xtr" (some (first.encode ++ second.encode.drop length)) = .ok u ∧
      u.times = [5, 9] ∧ u.lookupByIndex 1 = t.lookupByIndex 0 ∧
      u.lookupByIndex 0 = .ok (Recording.sampleRecord 5 1001) ∧
      u.lookupByIndex 1 = .ok (Recording.sampleRecord 9 1005)) ∧
    load {} "flow.xtr" (some (second.encode ++ first.encode.drop length)) =
      .error (.unorderedTimeSteps 1 9 5) := by
  intro sample first second length
  have hsample := Recording.wellFormed_sample .four
  have hfirst : first.WellFormed := hsample.of_sublist (List.take_sublist 1 _)
  have hsecond : second.WellFormed := hsample.of_sublist (List.drop_sublist 1 _)
  have hheaders : first.encode.take length = second.encode.take length := by decide +kernel
  have hs := hfirst.load_eq "first.xtr"
  have ht := hsecond.load_eq "second.xtr"
  have hstimes : (hfirst.series "first.xtr").times = [5] := hfirst.times_series _
  have httimes : (hsecond.series "second.xtr").times = [9] := hsecond.times_series _
  have hscount : (hfirst.series "first.xtr").timeCount = 1 := hfirst.timeCount_series _
  have htcount : (hsecond.series "second.xtr").timeCount = 1 := hsecond.timeCount_series _
  obtain ⟨r, hr, hdecodes⟩ := hfirst.lookupByIndex_series "first.xtr" (i := 0) rfl
  obtain rfl : r = Recording.sampleRecord 5 1001 := Recording.eq_sampleRecord (i := 0) rfl hdecodes
  obtain ⟨r', hr', hdecodes'⟩ := hsecond.lookupByIndex_series "second.xtr" (i := 0) rfl
  obtain rfl : r' = Recording.sampleRecord 9 1005 :=
    Recording.eq_sampleRecord (i := 1) rfl hdecodes'
  have hjoins := (load_join hs ht hheaders "flow.xtr").joins
  have hdescends := (load_join ht hs hheaders.symm "flow.xtr").descends
  rw [hstimes, httimes] at hjoins hdescends
  rw [htcount] at hdescends
  obtain ⟨u, hu, hjoined⟩ := hjoins (by simp)
  have hlookup : u.lookupByIndex 0 = _ := hjoined.lookup_first 0 (by omega)
  have hlookup' := hjoined.lookup_second 1 (by omega) (by omega)
  rw [hscount] at hlookup'
  have htimes := hjoined.times_eq
  rw [hstimes, httimes] at htimes
  exact ⟨⟨_, _, u, hs, ht, hu, htimes, hlookup', hlookup.trans hr, hlookup'.trans hr'⟩,
    hdescends 9 rfl 5 rfl (by decide)⟩

end LatticeSeries.Series
