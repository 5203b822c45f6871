import LatticeSeries.Proofs.CheckedBlock
import LatticeSeries.Proofs.IndexBuild
import LatticeSeries.Proofs.Search
import Mathlib.Data.List.Range
import Mathlib.Order.Basic

/-!
# What building an index answers

The answer follows from three lengths and the values that lead the records. The
lengths are judged first; only if they divide the body into whole records are the
values compared, and then the first pair of neighbours that does not ascend is
the one reported. No step of this can fault: every offset that is computed lies
inside the file.
-/
namespace LatticeSeries

/-- A pair is reported exactly if it is the first at fault. The induction is on
the entries; the index counts those that are passed already. -/
theorem TimeEntry.firstDescent?_eq_some_iff {index k : Nat} {entries : List TimeEntry}
    {previous current : UInt64} :
    firstDescent? index entries = some (k, previous, current) ↔
      ∃ i, ∃ h : i + 1 < entries.length, k = index + i + 1 ∧
        previous = entries[i].timeStep ∧ current = entries[i + 1].timeStep ∧
        current ≤ previous ∧
        ∀ j, (hj : j < i) → entries[j].timeStep < entries[j + 1].timeStep := by
  induction entries generalizing index with
  | nil => simp [firstDescent?]
  | cons a entries ih =>
    cases entries with
    | nil => simp [firstDescent?]
    | cons b entries =>
      rw [firstDescent?]
      by_cases hab : a.timeStep < b.timeStep
      · rw [if_pos hab, ih]
        constructor
        · intro hrest
          rcases hrest with ⟨i, h, rfl, hprevious, hcurrent, hle, hbefore⟩
          refine ⟨i + 1, Nat.succ_lt_succ h, by omega, hprevious, hcurrent, hle, ?_⟩
          intro j hj
          cases j with
          | zero => exact hab
          | succ j => exact hbefore j (Nat.lt_of_succ_lt_succ hj)
        · intro hall
          rcases hall with ⟨i, h, rfl, hprevious, hcurrent, hle, hbefore⟩
          cases i with
          | zero =>
            rw [hprevious, hcurrent] at hle
            exact absurd hab (UInt64.not_lt.mpr hle)
          | succ i =>
            exact ⟨i, Nat.lt_of_succ_lt_succ h, by omega, hprevious, hcurrent, hle,
              fun j hj => hbefore (j + 1) (Nat.succ_lt_succ hj)⟩
      · rw [if_neg hab]
        constructor
        · intro hfirst
          cases hfirst
          exact ⟨0, by simp, rfl, rfl, rfl, UInt64.not_lt.mp hab, fun j hj => absurd hj (by omega)⟩
        · intro hall
          rcases hall with ⟨i, h, rfl, rfl, rfl, hle, hbefore⟩
          cases i with
          | zero => rfl
          | succ i => exact absurd (hbefore 0 (Nat.succ_pos i)) hab

namespace TimeIndex

/-- The value that leads record `i`: eight bytes, where the record begins. -/
def markerAt (file : Bytes) (headerLength recordLength i : Nat) : UInt64 :=
  u64OfBytes ((file.drop (headerLength + i * recordLength)).take markerLength)

/-- What follows the headers is a run of whole records, each with room for its value. -/
structure Tiled (fileLength headerLength recordLength : Nat) : Prop where
  markerLength_le : markerLength ≤ recordLength
  headerLength_le : headerLength ≤ fileLength
  residual : (fileLength - headerLength) % recordLength = 0

def recordCount (fileLength headerLength recordLength : Nat) : Nat :=
  (fileLength - headerLength) / recordLength

namespace Tiled

variable {fileLength headerLength recordLength : Nat}

theorem recordLength_pos (h : Tiled fileLength headerLength recordLength) : 0 < recordLength :=
  Nat.lt_of_lt_of_le (by decide) h.markerLength_le

/-- Nothing is left over behind the last record. -/
theorem length_eq (h : Tiled fileLength headerLength recordLength) :
    headerLength + recordCount fileLength headerLength recordLength * recordLength =
      fileLength := by
  have hbody : recordCount fileLength headerLength recordLength * recordLength =
      fileLength - headerLength := Nat.div_mul_cancel (Nat.dvd_of_mod_eq_zero h.residual)
  have hheader := h.headerLength_le
  omega

theorem record_le (h : Tiled fileLength headerLength recordLength) {i : Nat}
    (hi : i < recordCount fileLength headerLength recordLength) :
    headerLength + i * recordLength + recordLength ≤ fileLength := by
  have hlast : (i + 1) * recordLength ≤ _ := Nat.mul_le_mul_right recordLength hi
  have hlength := h.length_eq
  rw [Nat.succ_mul] at hlast
  omega

/-- A byte behind the headers belongs to one record and to no other. -/
theorem existsUnique_record (h : Tiled fileLength headerLength recordLength) {p : Nat}
    (hp : headerLength ≤ p) (hlt : p < fileLength) :
    ∃! i, i < recordCount fileLength headerLength recordLength ∧
      headerLength + i * recordLength ≤ p ∧ p < headerLength + i * recordLength + recordLength := by
  have hpos := h.recordLength_pos
  have hlength := h.length_eq
  have hplace : ∀ i, (p - headerLength) / recordLength = i ↔
      headerLength + i * recordLength ≤ p ∧ p < headerLength + i * recordLength + recordLength := by
    intro i
    rw [Nat.div_eq_iff hpos]
    omega
  refine ⟨(p - headerLength) / recordLength, ⟨?_, (hplace _).mp rfl⟩, ?_⟩
  · rw [Nat.div_lt_iff_lt_mul hpos]
    omega
  · intro i hi
    exact ((hplace i).mpr hi.2).symm

end Tiled

/-- The entries of all records, each from its own record. -/
def entriesOf (file : Bytes) (headerLength recordLength : Nat) : List TimeEntry :=
  (List.range (recordCount file.length headerLength recordLength)).map fun i =>
    ⟨markerAt file headerLength recordLength i, headerLength + i * recordLength⟩

section

variable {file : Bytes} {headerLength recordLength : Nat}

theorem scan_eq_entriesOf :
    scan recordLength (recordCount file.length headerLength recordLength) headerLength
      (file.drop headerLength) = entriesOf file headerLength recordLength := by
  apply List.ext_getElem?
  intro i
  rw [entriesOf, List.getElem?_map]
  by_cases hi : i < recordCount file.length headerLength recordLength
  · rw [getElem?_scan hi, List.getElem?_range hi, List.drop_drop]
    rfl
  · have hle := Nat.le_of_not_lt hi
    rw [List.getElem?_eq_none (by simpa using hle), List.getElem?_eq_none (by simpa using hle)]
    rfl

/-- Once the lengths are in order, only the values are left to judge. -/
theorem Tiled.build_eq (h : Tiled file.length headerLength recordLength) :
    build file headerLength recordLength =
      ofEntries (entriesOf file headerLength recordLength) := by
  rw [build_of_whole h.markerLength_le h.headerLength_le h.residual, ← scan_eq_entriesOf]
  rfl

theorem firstDescent?_entriesOf_eq_some_iff {k : Nat} {previous current : UInt64} :
    TimeEntry.firstDescent? 0 (entriesOf file headerLength recordLength) =
        some (k, previous, current) ↔
      ∃ i, i + 1 < recordCount file.length headerLength recordLength ∧ k = i + 1 ∧
        previous = markerAt file headerLength recordLength i ∧
        current = markerAt file headerLength recordLength (i + 1) ∧ current ≤ previous ∧
        ∀ j < i, markerAt file headerLength recordLength j <
          markerAt file headerLength recordLength (j + 1) := by
  rw [TimeEntry.firstDescent?_eq_some_iff]
  simp only [entriesOf, List.length_map, List.length_range, List.getElem_map, List.getElem_range,
    Nat.zero_add, exists_prop]

/-- Neighbours that ascend everywhere are values that ascend altogether. -/
theorem firstDescent?_entriesOf_eq_none_iff :
    TimeEntry.firstDescent? 0 (entriesOf file headerLength recordLength) = none ↔
      ∀ i, i + 1 < recordCount file.length headerLength recordLength →
        markerAt file headerLength recordLength i <
          markerAt file headerLength recordLength (i + 1) := by
  rw [TimeEntry.firstDescent?_eq_none_iff, ← List.isChain_iff_pairwise, entriesOf, List.map_map,
    List.isChain_map, List.isChain_range]
  constructor
  · intro h i hi
    exact h i (by omega)
  · intro h i hi
    exact h i (by omega)

end

end TimeIndex

namespace Checked

theorem ofEntries_eq_ok (entries : List TimeEntry) :
    ofEntries entries = .ok (TimeIndex.ofEntries entries) := by
  have hlength : (entries.zip entries.tail).length = entries.length - 1 := by simp
  unfold ofEntries
  split
  · rename_i i hfound
    obtain ⟨hi, hle, hbefore⟩ := List.findIdx?_eq_some_iff_getElem.mp hfound
    have hnext : i + 1 < entries.length := by omega
    have hdescent : TimeEntry.firstDescent? 0 entries =
        some (i + 1, entries[i].timeStep, entries[i + 1].timeStep) := by
      rw [TimeEntry.firstDescent?_eq_some_iff]
      refine ⟨i, hnext, by omega, rfl, rfl, by simpa using hle, ?_⟩
      intro j hj
      simpa using hbefore j hj
    have hprevious : element entries i = .ok entries[i] :=
      element_eq_ok (List.getElem?_eq_getElem (Nat.lt_of_succ_lt hnext))
    have hcurrent : element entries (i + 1) = .ok entries[i + 1] :=
      element_eq_ok (List.getElem?_eq_getElem hnext)
    rw [hprevious, ok_bind, hcurrent, ok_bind,
      TimeIndex.ofEntries_eq_error_iff.mpr ⟨_, _, _, hdescent, rfl⟩]
    rfl
  · rename_i hfound
    have hnone : TimeEntry.firstDescent? 0 entries = none := by
      rw [Option.eq_none_iff_forall_ne_some]
      rintro ⟨k, previous, current⟩ hdescent
      obtain ⟨i, h, -, rfl, rfl, hle, -⟩ := TimeEntry.firstDescent?_eq_some_iff.mp hdescent
      have hmem : (entries[i], entries[i + 1]) ∈ entries.zip entries.tail := by
        rw [List.mem_iff_getElem]
        exact ⟨i, by omega, by simp⟩
      have hfalse := List.findIdx?_eq_none_iff.mp hfound _ hmem
      exact absurd hle (by simpa using hfalse)
    have hascending := TimeEntry.firstDescent?_eq_none_iff.mp hnone
    rw [dif_pos hascending, TimeIndex.ofEntries_eq_ok_iff.mpr]
    rfl

variable {room : Nat} {file : Bytes} {headerLength recordLength : Nat}

theorem scanAt_eq_ok (h : TimeIndex.Tiled file.length headerLength recordLength)
    (hfile : file.length < UInt64.size) {i : Nat}
    (hi : i < TimeIndex.recordCount file.length headerLength recordLength) :
    scanAt file headerLength recordLength i =
      .ok ⟨TimeIndex.markerAt file headerLength recordLength i,
        headerLength + i * recordLength⟩ := by
  have hrecord := h.record_le hi
  have hmarker := h.markerLength_le
  have hdistance : mul i recordLength = .ok (i * recordLength) := mul_eq_ok (by omega)
  have hoffset : add headerLength (i * recordLength) = .ok (headerLength + i * recordLength) :=
    add_eq_ok (by omega)
  have hstop : add (headerLength + i * recordLength) TimeIndex.markerLength =
      .ok (headerLength + i * recordLength + TimeIndex.markerLength) := add_eq_ok (by omega)
  have hslice : slice file (headerLength + i * recordLength)
      (headerLength + i * recordLength + TimeIndex.markerLength) =
        .ok ((file.drop (headerLength + i * recordLength)).take TimeIndex.markerLength) := by
    rw [slice_eq_ok (Nat.le_add_right _ _) (by omega), Nat.add_sub_cancel_left]
  rw [scanAt, hdistance, ok_bind, hoffset, ok_bind, hstop, ok_bind, hslice, ok_bind]
  rfl

/-- The entries of the index take at most twice the bytes of the records. -/
theorem allocate_entries_eq_ok (h : TimeIndex.Tiled file.length headerLength recordLength)
    (hroom : 2 * file.length ≤ room) :
    allocate room (TimeIndex.recordCount file.length headerLength recordLength) entrySize =
      .ok () := by
  apply allocate_eq_ok
  have hwidth : entrySize ≤ 2 * recordLength := Nat.mul_le_mul_left 2 h.markerLength_le
  have hlength := h.length_eq
  calc TimeIndex.recordCount file.length headerLength recordLength * entrySize
      ≤ TimeIndex.recordCount file.length headerLength recordLength * (2 * recordLength) :=
        Nat.mul_le_mul_left _ hwidth
    _ = 2 * (TimeIndex.recordCount file.length headerLength recordLength * recordLength) :=
        Nat.mul_left_comm _ _ _
    _ ≤ room := by omega

theorem build_eq_ok (hroom : 2 * file.length ≤ room) (hword : room < UInt64.size) :
    build room file headerLength recordLength =
      .ok (TimeIndex.build file headerLength recordLength) := by
  unfold build TimeIndex.build
  split_ifs with hshort hcut
  · rfl
  · rfl
  have hpos : recordLength ≠ 0 := by
    intro hzero
    exact hshort (hzero ▸ by decide)
  have hremainder : remainder (file.length - headerLength) recordLength = _ := if_neg hpos
  have hquotient : quotient (file.length - headerLength) recordLength = _ := if_neg hpos
  dsimp only
  rw [hremainder, ok_bind]
  split_ifs with hresidual
  · rfl
  have htiled : TimeIndex.Tiled file.length headerLength recordLength :=
    ⟨Nat.le_of_not_lt hshort, Nat.le_of_not_lt hcut, Classical.not_not.mp hresidual⟩
  have hentries := mapM_eq_ok fun i hi =>
    scanAt_eq_ok htiled (by omega) (List.mem_range.mp hi)
  rw [hquotient, ok_bind]
  change allocate room (TimeIndex.recordCount _ _ _) entrySize >>= _ = _
  rw [allocate_entries_eq_ok htiled hroom, ok_bind]
  change (List.range (TimeIndex.recordCount _ _ _)).mapM _ >>= _ = _
  rw [hentries, ok_bind, ofEntries_eq_ok]
  exact congrArg (Except.ok <| TimeIndex.ofEntries ·) TimeIndex.scan_eq_entriesOf.symm

end Checked

namespace TimeIndex

/-- Why no index is built. What a constructor asks for excludes the constructors before it. -/
inductive Refused (file : Bytes) (headerLength recordLength : Nat) : Error → Prop
  | shortRecord :
      recordLength < markerLength →
      Refused file headerLength recordLength
        (.corruptHeader (.recordLengthBelowMarker recordLength))
  | cutHeaders :
      markerLength ≤ recordLength → file.length < headerLength →
      Refused file headerLength recordLength (.truncated .headers headerLength file.length)
  | partialRecord :
      markerLength ≤ recordLength → headerLength ≤ file.length →
      (file.length - headerLength) % recordLength ≠ 0 →
      Refused file headerLength recordLength
        (.corruptBody (file.length - headerLength) recordLength
          ((file.length - headerLength) % recordLength))
  | descent {i : Nat} :
      Tiled file.length headerLength recordLength →
      i + 1 < recordCount file.length headerLength recordLength →
      markerAt file headerLength recordLength (i + 1) ≤
        markerAt file headerLength recordLength i →
      (∀ j < i, markerAt file headerLength recordLength j <
        markerAt file headerLength recordLength (j + 1)) →
      Refused file headerLength recordLength
        (.unorderedTimeSteps (i + 1) (markerAt file headerLength recordLength i)
          (markerAt file headerLength recordLength (i + 1)))

variable {file : Bytes} {headerLength recordLength : Nat}

theorem Refused.build_eq {e : Error} (h : Refused file headerLength recordLength e) :
    build file headerLength recordLength = .error e := by
  cases h with
  | shortRecord hshort => exact if_pos hshort
  | cutHeaders hmarker hcut =>
    rw [build, if_neg (Nat.not_lt.mpr hmarker)]
    exact if_pos hcut
  | partialRecord hmarker hheader hresidual => exact build_of_residual hmarker hheader hresidual
  | descent htiled hi hle hbefore =>
    rw [htiled.build_eq, ofEntries_eq_error_iff]
    exact ⟨_, _, _, firstDescent?_entriesOf_eq_some_iff.mpr ⟨_, hi, rfl, rfl, rfl, hle, hbefore⟩,
      rfl⟩

theorem tiled_or_refused (file : Bytes) (headerLength recordLength : Nat) :
    Tiled file.length headerLength recordLength ∨
      ∃ e, Refused file headerLength recordLength e := by
  rcases Nat.lt_or_ge recordLength markerLength with hshort | hmarker
  · exact .inr ⟨_, .shortRecord hshort⟩
  rcases Nat.lt_or_ge file.length headerLength with hcut | hheader
  · exact .inr ⟨_, .cutHeaders hmarker hcut⟩
  by_cases hresidual : (file.length - headerLength) % recordLength = 0
  · exact .inl ⟨hmarker, hheader, hresidual⟩
  · exact .inr ⟨_, .partialRecord hmarker hheader hresidual⟩

theorem build_eq_error_iff {e : Error} :
    build file headerLength recordLength = .error e ↔
      Refused file headerLength recordLength e := by
  constructor
  · intro hbuild
    rcases tiled_or_refused file headerLength recordLength with htiled | ⟨e', hrefused⟩
    · rw [htiled.build_eq, ofEntries_eq_error_iff] at hbuild
      obtain ⟨k, previous, current, hdescent, rfl⟩ := hbuild
      obtain ⟨i, hi, rfl, rfl, rfl, hle, hbefore⟩ :=
        firstDescent?_entriesOf_eq_some_iff.mp hdescent
      exact .descent htiled hi hle hbefore
    · obtain rfl : e' = e := Except.error.inj (hrefused.build_eq.symm.trans hbuild)
      exact hrefused
  · exact Refused.build_eq

/-- Either all values ascend and an index is built, or none is. -/
theorem exists_build_eq_ok_iff :
    (∃ index, build file headerLength recordLength = .ok index) ↔
      Tiled file.length headerLength recordLength ∧
        ∀ i, i + 1 < recordCount file.length headerLength recordLength →
          markerAt file headerLength recordLength i <
            markerAt file headerLength recordLength (i + 1) := by
  rw [← firstDescent?_entriesOf_eq_none_iff]
  constructor
  · intro h
    obtain ⟨index, hbuild⟩ := h
    have hlengths := build_eq_ok_iff.mp hbuild
    have htiled : Tiled file.length headerLength recordLength :=
      ⟨hlengths.1, hlengths.2.1, hlengths.2.2.1⟩
    rw [htiled.build_eq, ofEntries_eq_ok_iff] at hbuild
    refine ⟨htiled, TimeEntry.firstDescent?_eq_none_iff.mpr ?_⟩
    have hascending := index.ascending
    rwa [hbuild] at hascending
  · intro h
    rcases h with ⟨htiled, hnone⟩
    obtain ⟨index, hindex, -⟩ :=
      ofEntries_of_ascending (TimeEntry.firstDescent?_eq_none_iff.mp hnone)
    exact ⟨index, htiled.build_eq.trans hindex⟩

theorem get_eq_ok_iff {index : TimeIndex} {i : Nat} {entry : TimeEntry} :
    index.get i = .ok entry ↔ ∃ hi : i < index.size, index.entries[i] = entry := by
  rcases Nat.lt_or_ge i index.size with hi | hi
  · rw [index.get_of_lt hi, Except.ok.injEq]
    exact ⟨fun h => ⟨hi, h⟩, fun h => h.2⟩
  · rw [index.get_of_le hi]
    constructor
    · intro h
      cases h
    · intro h
      exact absurd h.1 (Nat.not_lt.mpr hi)

section

variable {index : TimeIndex} (h : build file headerLength recordLength = .ok index)

include h

theorem tiled_of_build : Tiled file.length headerLength recordLength :=
  (exists_build_eq_ok_iff.mp ⟨index, h⟩).1

theorem entries_of_build :
    index.entries = (entriesOf file headerLength recordLength).toArray := by
  rw [(tiled_of_build h).build_eq] at h
  exact ofEntries_eq_ok_iff.mp h

theorem size_of_build : index.size = recordCount file.length headerLength recordLength := by
  simp [size, entries_of_build h, entriesOf]

theorem get_of_build {i : Nat} (hi : i < index.size) :
    index.get i = .ok ⟨markerAt file headerLength recordLength i,
      headerLength + i * recordLength⟩ := by
  have hcount : i < recordCount file.length headerLength recordLength := size_of_build h ▸ hi
  rw [get, entries_of_build h, List.getElem?_toArray, entriesOf, List.getElem?_map,
    List.getElem?_range hcount]
  rfl

theorem existsUnique_get {p : Nat} (hp : headerLength ≤ p) (hlt : p < file.length) :
    ∃! i, ∃ entry, index.get i = .ok entry ∧
      entry.offset ≤ p ∧ p < entry.offset + recordLength := by
  obtain ⟨i, ⟨hi, hinside⟩, hunique⟩ := (tiled_of_build h).existsUnique_record hp hlt
  rw [← size_of_build h] at hi
  refine ⟨i, ⟨_, get_of_build h hi, hinside⟩, ?_⟩
  intro j hj
  obtain ⟨entry, hget, hplace⟩ := hj
  have hsize : j < index.size := (get_eq_ok_iff.mp hget).1
  rw [get_of_build h hsize, Except.ok.injEq] at hget
  subst hget
  exact hunique j ⟨size_of_build h ▸ hsize, hplace⟩

end

/-- The index divides the body of a file among its entries: one for each record, with
the value that leads the record and the place at which the record begins. -/
structure Divides (index : TimeIndex) (file : Bytes) (headerLength recordLength : Nat) :
    Prop where
  size_eq : index.size = (file.length - headerLength) / recordLength
  get_eq : ∀ i < index.size, index.get i =
    .ok ⟨u64OfBytes ((file.drop (headerLength + i * recordLength)).take 8),
      headerLength + i * recordLength⟩
  ascending : ∀ i j a b, i < j → index.get i = .ok a → index.get j = .ok b →
    a.timeStep < b.timeStep
  length_eq : headerLength + index.size * recordLength = file.length
  existsUnique : ∀ p, headerLength ≤ p → p < file.length →
    ∃! i, ∃ entry, index.get i = .ok entry ∧ entry.offset ≤ p ∧ p < entry.offset + recordLength

theorem divides_of_build {index : TimeIndex}
    (h : build file headerLength recordLength = .ok index) :
    index.Divides file headerLength recordLength where
  size_eq := size_of_build h
  get_eq := fun _ hi => get_of_build h hi
  ascending := by
    intro i j a b hij ha hb
    obtain ⟨hi, rfl⟩ := get_eq_ok_iff.mp ha
    obtain ⟨hj, rfl⟩ := get_eq_ok_iff.mp hb
    exact index.timeStep_lt hi hj hij
  length_eq := by
    rw [size_of_build h]
    exact (tiled_of_build h).length_eq
  existsUnique := fun _ hp hlt => existsUnique_get h hp hlt

/-- What building an index of a file comes to. No checked operation faults in a process
that has room for the file and its index. -/
structure Verdict (file : Bytes) (headerLength recordLength : Nat) : Prop where
  checked : ∀ room, 2 * file.length ≤ room → room < UInt64.size →
    Checked.build room file headerLength recordLength =
      .ok (build file headerLength recordLength)
  error_iff : ∀ e, build file headerLength recordLength = .error e ↔
    Refused file headerLength recordLength e
  ok_iff : (∃ index, build file headerLength recordLength = .ok index) ↔
    Tiled file.length headerLength recordLength ∧
      ∀ i, i + 1 < recordCount file.length headerLength recordLength →
        markerAt file headerLength recordLength i <
          markerAt file headerLength recordLength (i + 1)
  divides : ∀ index, build file headerLength recordLength = .ok index →
    index.Divides file headerLength recordLength

/-- Building an index is exact for every file and every pair of lengths: an index is
refused for the first thing that is wrong, and otherwise it divides the body. -/
theorem build_exact (file : Bytes) (headerLength recordLength : Nat) :
    Verdict file headerLength recordLength where
  checked := fun _ hroom hword => Checked.build_eq_ok hroom hword
  error_iff := fun _ => build_eq_error_iff
  ok_iff := exists_build_eq_ok_iff
  divides := fun _ => divides_of_build

/-- A file with a header of four bytes and records of twelve, one for each value. -/
def markedFile (values : List UInt64) : Bytes :=
  bytesOfU32 0xaaaaaaaa ++ values.flatMap fun value => bytesOfU64 value ++ bytesOfU32 0xdeadbeef

theorem build_exact_sample :
    Checked.build 80 (markedFile [0, 5, 3]) 4 12 = .ok (build (markedFile [0, 5, 3]) 4 12) ∧
    build (markedFile [0, 5, 3]) 4 12 = .error (.unorderedTimeSteps 2 5 3) ∧
    ∃ index, build (markedFile [0, 100, 250]) 4 12 = .ok index ∧
      index.get 2 = .ok ⟨250, 28⟩ := by
  have hdescent := build_exact (markedFile [0, 5, 3]) 4 12
  have hordered := build_exact (markedFile [0, 100, 250]) 4 12
  refine ⟨hdescent.checked 80 (by decide +kernel) (by decide +kernel), ?_, ?_⟩
  · have htiled : Tiled (markedFile [0, 5, 3]).length 4 12 :=
      ⟨by decide +kernel, by decide +kernel, by decide +kernel⟩
    exact (hdescent.error_iff _).mpr (.descent (i := 1) htiled (by decide +kernel)
      (by decide +kernel) (by decide +kernel))
  · have htiled : Tiled (markedFile [0, 100, 250]).length 4 12 :=
      ⟨by decide +kernel, by decide +kernel, by decide +kernel⟩
    have hascending : ∀ i < 2, markerAt (markedFile [0, 100, 250]) 4 12 i <
        markerAt (markedFile [0, 100, 250]) 4 12 (i + 1) := by decide +kernel
    have hcount : recordCount (markedFile [0, 100, 250]).length 4 12 = 3 := by decide +kernel
    obtain ⟨index, hbuild⟩ := hordered.ok_iff.mpr ⟨htiled, fun i hi => hascending i (by omega)⟩
    have hdivides := hordered.divides index hbuild
    exact ⟨index, hbuild, hdivides.get_eq 2 (by rw [hdivides.size_eq]; decide +kernel)⟩

end TimeIndex

end LatticeSeries
