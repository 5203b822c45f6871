import LatticeSeries.TimeIndex
import Mathlib.Order.Basic
import Mathlib.Tactic.SplitIfs

/-!
# Searching the time index

The values of an index ascend strictly, which is why halving finds a value: an
entry below the value rules out all entries before it, and an entry above rules
out all entries after it. A search therefore answers with the one position that
holds the value, or with none when no position does.
-/
namespace LatticeSeries.TimeIndex

theorem timeStep_lt (index : TimeIndex) {i j : Nat} (hi : i < index.entries.size)
    (hj : j < index.entries.size) (hij : i < j) :
    index.entries[i].timeStep < index.entries[j].timeStep := by
  have h := List.pairwise_iff_getElem.mp index.ascending i j (by simpa using hi)
    (by simpa using hj) hij
  simpa using h

theorem timeStep_inj (index : TimeIndex) {i j : Nat} (hi : i < index.entries.size)
    (hj : j < index.entries.size)
    (heq : index.entries[i].timeStep = index.entries[j].timeStep) : i = j := by
  rcases Nat.lt_trichotomy i j with hlt | rfl | hlt
  · exact absurd heq (UInt64.ne_of_lt (index.timeStep_lt hi hj hlt))
  · rfl
  · exact absurd heq.symm (UInt64.ne_of_lt (index.timeStep_lt hj hi hlt))

/-- The part that is searched holds every position of the value that is left. -/
theorem searchBetween_eq_some_iff (index : TimeIndex) {timeStep : UInt64} {low high : Nat}
    (bound : high ≤ index.entries.size) {i : Nat} :
    searchBetween index.entries timeStep low high bound = some i ↔
      low ≤ i ∧ i < high ∧ ∃ hi : i < index.entries.size,
        index.entries[i].timeStep = timeStep := by
  fun_induction searchBetween index.entries timeStep low high bound with
  | case1 low high bound proper middle inside found heq =>
    constructor
    · intro h
      obtain rfl := Option.some.inj h
      exact ⟨by omega, by omega, inside, heq⟩
    · intro h
      rcases h with ⟨-, -, hi, hvalue⟩
      rw [index.timeStep_inj hi inside (hvalue.trans heq.symm)]
  | case2 low high bound proper middle inside found hne hlt ih =>
    rw [ih]
    constructor
    · intro h
      rcases h with ⟨hlow, hhigh, hrest⟩
      exact ⟨by omega, hhigh, hrest⟩
    · intro h
      rcases h with ⟨hlow, hhigh, hi, hvalue⟩
      refine ⟨?_, hhigh, hi, hvalue⟩
      by_contra hle
      rcases Nat.lt_or_eq_of_le (Nat.le_of_not_lt hle) with hbefore | rfl
      · have habove := index.timeStep_lt hi inside hbefore
        rw [hvalue] at habove
        exact UInt64.lt_asymm habove hlt
      · exact hne hvalue
  | case3 low high bound proper middle inside found hne hlt ih =>
    rw [ih]
    constructor
    · intro h
      rcases h with ⟨hlow, hhigh, hrest⟩
      exact ⟨hlow, by omega, hrest⟩
    · intro h
      rcases h with ⟨hlow, hhigh, hi, hvalue⟩
      refine ⟨hlow, ?_, hi, hvalue⟩
      by_contra hge
      rcases Nat.lt_or_eq_of_le (Nat.le_of_not_lt hge) with hafter | rfl
      · have hbelow := index.timeStep_lt inside hi hafter
        rw [hvalue] at hbelow
        exact hlt hbelow
      · exact hne hvalue
  | case4 low high bound empty =>
    constructor
    · intro h
      cases h
    · intro h
      rcases h with ⟨hlow, hhigh, -⟩
      omega

theorem positionOf_eq_ok_iff (index : TimeIndex) {timeStep : UInt64} {i : Nat} :
    index.positionOf timeStep = .ok i ↔
      ∃ hi : i < index.size, index.entries[i].timeStep = timeStep := by
  have h : searchBetween index.entries timeStep 0 index.entries.size (Nat.le_refl _) = some i ↔ _ :=
    index.searchBetween_eq_some_iff (Nat.le_refl _)
  unfold positionOf size
  constructor
  · intro hp
    split at hp
    · rename_i position hs
      cases hp
      exact (h.mp hs).2.2
    · cases hp
  · intro h
    rcases h with ⟨hi, hvalue⟩
    rw [h.mpr ⟨Nat.zero_le i, hi, hi, hvalue⟩]

theorem mem_times_iff (index : TimeIndex) {timeStep : UInt64} :
    timeStep ∈ index.times ↔ ∃ i, ∃ hi : i < index.size, index.entries[i].timeStep = timeStep := by
  simp only [times, size, List.mem_map, Array.mem_toList_iff, Array.mem_iff_getElem]
  constructor
  · intro h
    rcases h with ⟨e, ⟨i, hi, rfl⟩, hvalue⟩
    exact ⟨i, hi, hvalue⟩
  · intro h
    rcases h with ⟨i, hi, hvalue⟩
    exact ⟨_, ⟨i, hi, rfl⟩, hvalue⟩

/-- A value that is not listed is reported itself, whatever lies next to it. -/
theorem positionOf_eq_error (index : TimeIndex) {timeStep : UInt64}
    (h : timeStep ∉ index.times) :
    index.positionOf timeStep = .error (.timeStepNotFound timeStep) := by
  cases hp : index.positionOf timeStep with
  | ok i => exact absurd (index.mem_times_iff.mpr ⟨i, index.positionOf_eq_ok_iff.mp hp⟩) h
  | error fault =>
    unfold positionOf at hp
    split at hp
    · cases hp
    · exact hp.symm

theorem get_of_lt (index : TimeIndex) {i : Nat} (hi : i < index.size) :
    index.get i = .ok index.entries[i] := by
  have hentry : index.entries[i]? = some index.entries[i] := Array.getElem?_eq_getElem hi
  simp only [get, hentry]

theorem get_of_le (index : TimeIndex) {i : Nat} (hi : index.size ≤ i) :
    index.get i = .error (.indexOutOfRange i index.size) := by
  rw [get, Array.getElem?_eq_none hi]

/-- A search answers with the position at which the value is read back. -/
theorem positionOf_eq_ok_iff_get (index : TimeIndex) {timeStep : UInt64} {i : Nat} :
    index.positionOf timeStep = .ok i ↔
      i < index.size ∧ (index.get i).map (·.timeStep) = .ok timeStep := by
  rw [positionOf_eq_ok_iff]
  constructor
  · intro h
    rcases h with ⟨hi, hvalue⟩
    refine ⟨hi, ?_⟩
    rw [index.get_of_lt hi, ← hvalue]
    rfl
  · intro h
    rcases h with ⟨hi, hget⟩
    rw [index.get_of_lt hi] at hget
    exact ⟨hi, Except.ok.inj hget⟩

end LatticeSeries.TimeIndex
