import LatticeSeries.TimeIndex
import Mathlib.Tactic.SplitIfs

/-!
# Building the time index

An index is built exactly when the records tile the body and their values
ascend; it then lists one entry for each record, with the value that leads the
record and the offset at which it lies.
-/
namespace LatticeSeries

theorem TimeEntry.firstDescent?_eq_none_iff {index : Nat} {entries : List TimeEntry} :
    firstDescent? index entries = none ↔ (entries.map (·.timeStep)).Pairwise (· < ·) := by
  constructor
  · exact pairwise_of_firstDescent?
  · intro h
    induction entries generalizing index with
    | nil => rfl
    | cons a entries ih =>
      cases entries with
      | nil => rfl
      | cons b entries =>
        rw [List.map_cons, List.pairwise_cons] at h
        have hab : a.timeStep < b.timeStep := h.1 b.timeStep (by simp)
        rw [firstDescent?, if_pos hab]
        exact ih h.2

/-- The first pair that does not ascend is found, with the index of its second entry. -/
theorem TimeEntry.firstDescent?_of_descent {index : Nat} {before after : List TimeEntry}
    {a b : TimeEntry} (hbefore : ((before ++ [a]).map (·.timeStep)).Pairwise (· < ·))
    (hdescent : ¬a.timeStep < b.timeStep) :
    firstDescent? index (before ++ a :: b :: after) =
      some (index + before.length + 1, a.timeStep, b.timeStep) := by
  induction before generalizing index with
  | nil => exact if_neg hdescent
  | cons c before ih =>
    rw [List.cons_append, List.map_cons, List.pairwise_cons] at hbefore
    have hnext : firstDescent? (index + 1) (before ++ a :: b :: after) = _ := ih hbefore.2
    rw [List.length_cons, ← Nat.add_assoc, Nat.add_right_comm index, ← hnext]
    cases before with
    | nil => exact if_pos (hbefore.1 a.timeStep (by simp))
    | cons d before => exact if_pos (hbefore.1 d.timeStep (by simp))

namespace TimeIndex

theorem ofEntries_eq_ok_iff {entries : List TimeEntry} {index : TimeIndex} :
    ofEntries entries = .ok index ↔ index.entries = entries.toArray := by
  unfold ofEntries
  constructor
  · intro h
    split at h
    · cases h
    · cases h
      rfl
  · intro h
    have hnone : TimeEntry.firstDescent? 0 entries = none := by
      rw [TimeEntry.firstDescent?_eq_none_iff]
      simpa [h] using index.ascending
    split
    · rename_i hsome
      rw [hnone] at hsome
      cases hsome
    · exact congrArg Except.ok (TimeIndex.ext h.symm)

theorem ofEntries_of_ascending {entries : List TimeEntry}
    (h : (entries.map (·.timeStep)).Pairwise (· < ·)) :
    ∃ index, ofEntries entries = .ok index ∧ index.entries = entries.toArray :=
  ⟨⟨entries.toArray, h⟩, ofEntries_eq_ok_iff.mpr rfl, rfl⟩

theorem ofEntries_eq_error_iff {entries : List TimeEntry} {e : Error} :
    ofEntries entries = .error e ↔ ∃ index previous current,
      TimeEntry.firstDescent? 0 entries = some (index, previous, current) ∧
        e = .unorderedTimeSteps index previous current := by
  unfold ofEntries
  constructor
  · intro h
    split at h
    · rename_i index previous current hdescent
      cases h
      exact ⟨index, previous, current, hdescent, rfl⟩
    · cases h
  · intro h
    rcases h with ⟨index, previous, current, hdescent, rfl⟩
    split
    · rename_i hfound
      rw [hdescent] at hfound
      cases hfound
      rfl
    · rename_i hnone
      rw [hdescent] at hnone
      cases hnone

section
variable {file : Bytes} {headerLength recordLength : Nat}
  (hmarker : markerLength ≤ recordLength) (hheader : headerLength ≤ file.length)

include hmarker hheader in
theorem build_of_residual (hresidual : (file.length - headerLength) % recordLength ≠ 0) :
    build file headerLength recordLength = .error (.corruptBody (file.length - headerLength)
      recordLength ((file.length - headerLength) % recordLength)) := by
  rw [build, if_neg (Nat.not_lt.mpr hmarker), if_neg (Nat.not_lt.mpr hheader), if_pos hresidual]

include hmarker hheader in
theorem build_of_whole (hresidual : (file.length - headerLength) % recordLength = 0) :
    build file headerLength recordLength =
      ofEntries (scan recordLength ((file.length - headerLength) / recordLength) headerLength
        (file.drop headerLength)) := by
  rw [build, if_neg (Nat.not_lt.mpr hmarker), if_neg (Nat.not_lt.mpr hheader),
    if_neg (Classical.not_not.mpr hresidual)]

end

theorem build_eq_ok_iff {file : Bytes} {headerLength recordLength : Nat} {index : TimeIndex} :
    build file headerLength recordLength = .ok index ↔
      markerLength ≤ recordLength ∧ headerLength ≤ file.length ∧
      (file.length - headerLength) % recordLength = 0 ∧
      index.entries = (scan recordLength ((file.length - headerLength) / recordLength)
        headerLength (file.drop headerLength)).toArray := by
  unfold build
  dsimp only
  rw [← ofEntries_eq_ok_iff]
  constructor
  · intro h
    split_ifs at h with hshort hcut hresidual
    exact ⟨Nat.le_of_not_lt hshort, Nat.le_of_not_lt hcut, Classical.not_not.mp hresidual, h⟩
  · intro h
    rcases h with ⟨hlong, hwhole, hresidual, h⟩
    rw [if_neg (Nat.not_lt.mpr hlong), if_neg (Nat.not_lt.mpr hwhole),
      if_neg (Classical.not_not.mpr hresidual)]
    exact h

/-- Record `i` begins `i` record lengths after the first. -/
theorem getElem?_scan {recordLength count offset : Nat} {bytes : Bytes} {i : Nat}
    (hi : i < count) :
    (scan recordLength count offset bytes)[i]? =
      some ⟨u64OfBytes ((bytes.drop (i * recordLength)).take markerLength),
        offset + i * recordLength⟩ := by
  induction count generalizing offset bytes i with
  | zero => omega
  | succ count ih =>
    cases i with
    | zero => simp [scan]
    | succ i =>
      rw [scan, List.getElem?_cons_succ, ih (Nat.lt_of_succ_lt_succ hi), List.drop_drop,
        Nat.succ_mul, Nat.add_comm recordLength, Nat.add_assoc offset,
        Nat.add_comm recordLength]

/-- The values of the records of a body that is made of them. -/
theorem map_timeStep_scan {α : Type} {recordLength offset : Nat} {marker : α → UInt64}
    {encode : α → Bytes} {records : List α}
    (length_encode : ∀ r ∈ records, (encode r).length = recordLength)
    (take_encode : ∀ r ∈ records, (encode r).take markerLength = bytesOfU64 (marker r))
    (marker_le : markerLength ≤ recordLength) :
    (scan recordLength records.length offset (records.flatMap encode)).map (·.timeStep) =
      records.map marker := by
  induction records generalizing offset with
  | nil => rfl
  | cons r records ih =>
    obtain ⟨hlength, hlengths⟩ := List.forall_mem_cons.mp length_encode
    obtain ⟨htake, htakes⟩ := List.forall_mem_cons.mp take_encode
    have hmarker : (encode r ++ records.flatMap encode).take markerLength =
        bytesOfU64 (marker r) := by
      rw [List.take_append_of_le_length (hlength ▸ marker_le), htake]
    have hdrop : (encode r ++ records.flatMap encode).drop recordLength =
        records.flatMap encode := by rw [← hlength, List.drop_left]
    rw [List.length_cons, List.flatMap_cons, scan, hmarker, hdrop, List.map_cons,
      u64OfBytes_bytesOfU64, ih hlengths htakes, List.map_cons]

end TimeIndex

end LatticeSeries
