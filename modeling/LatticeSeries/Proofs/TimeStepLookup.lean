import LatticeSeries.Proofs.RoundTrip

/-!
# Finding time steps by value

A value is found at the one position that holds it, and the record found by
value is the record found by position. A value that no record carries is
reported as missing, however close its neighbours are.
-/
namespace LatticeSeries.Series

variable {s : Series} {timeStep : UInt64}

theorem indexOfTimeStep_eq_ok_iff {i : Nat} :
    s.indexOfTimeStep timeStep = .ok i ↔ i < s.timeCount ∧ s.timeStepAt i = .ok timeStep :=
  s.index.positionOf_eq_ok_iff_get

theorem lt_of_timeStepAt_eq_ok {i : Nat} (h : s.timeStepAt i = .ok timeStep) :
    i < s.timeCount := by
  by_contra hle
  rw [timeStepAt_of_le (Nat.le_of_not_lt hle)] at h
  cases h

theorem timeStepAt_inj {i j : Nat} (hi : s.timeStepAt i = .ok timeStep)
    (hj : s.timeStepAt j = .ok timeStep) : i = j := by
  have hposition : s.indexOfTimeStep timeStep = .ok i :=
    indexOfTimeStep_eq_ok_iff.mpr ⟨lt_of_timeStepAt_eq_ok hi, hi⟩
  have hposition' : s.indexOfTimeStep timeStep = .ok j :=
    indexOfTimeStep_eq_ok_iff.mpr ⟨lt_of_timeStepAt_eq_ok hj, hj⟩
  rw [hposition] at hposition'
  exact Except.ok.inj hposition'

theorem lookupByTimeStep_of_index {i : Nat} (h : s.indexOfTimeStep timeStep = .ok i) :
    s.lookupByTimeStep timeStep = s.lookupByIndex i := by
  rw [lookupByTimeStep, h]
  rfl

theorem indexOfTimeStep_eq_error (h : timeStep ∉ s.times) :
    s.indexOfTimeStep timeStep = .error (.timeStepNotFound timeStep) :=
  s.index.positionOf_eq_error h

theorem lookupByTimeStep_eq_error (h : timeStep ∉ s.times) :
    s.lookupByTimeStep timeStep = .error (.timeStepNotFound timeStep) := by
  rw [lookupByTimeStep, indexOfTimeStep_eq_error h]
  rfl

theorem mem_times_iff : timeStep ∈ s.times ↔ ∃ i, s.indexOfTimeStep timeStep = .ok i := by
  constructor
  · intro h
    obtain ⟨i, hi⟩ := s.index.mem_times_iff.mp h
    exact ⟨i, s.index.positionOf_eq_ok_iff.mpr hi⟩
  · intro h
    rcases h with ⟨i, hi⟩
    exact s.index.mem_times_iff.mpr ⟨i, s.index.positionOf_eq_ok_iff.mp hi⟩

/-- The value of a time step and its position determine each other, and both lead to the
same record. A value that is not there is reported by every lookup. -/
structure FindsByValue (s : Series) (timeStep : UInt64) : Prop where
  index_iff : ∀ i, s.indexOfTimeStep timeStep = .ok i ↔
    i < s.timeCount ∧ s.timeStepAt i = .ok timeStep
  index_unique : ∀ i j, s.timeStepAt i = .ok timeStep → s.timeStepAt j = .ok timeStep → i = j
  lookup : ∀ i, s.indexOfTimeStep timeStep = .ok i →
    ∃ record, s.lookupByIndex i = .ok record ∧ s.lookupByTimeStep timeStep = .ok record ∧
      record.timeStep = timeStep
  mem_times_iff : timeStep ∈ s.times ↔ ∃ i, s.indexOfTimeStep timeStep = .ok i
  missing : timeStep ∉ s.times →
    s.indexOfTimeStep timeStep = .error (.timeStepNotFound timeStep) ∧
      s.lookupByTimeStep timeStep = .error (.timeStepNotFound timeStep)

/-- An open file finds its time steps, and no others, by their values. -/
theorem lookupByTimeStep_correct {limits : Limits} {path : String} {content? : Option Bytes}
    (h : load limits path content? = .ok s) (timeStep : UInt64) : s.FindsByValue timeStep := by
  refine
    { index_iff := fun i => indexOfTimeStep_eq_ok_iff
      index_unique := fun i j hi hj => timeStepAt_inj hi hj
      lookup := ?_
      mem_times_iff := Series.mem_times_iff
      missing := fun hnot => ⟨indexOfTimeStep_eq_error hnot, lookupByTimeStep_eq_error hnot⟩ }
  intro i hposition
  obtain ⟨bytes, hopened⟩ := exists_opened h
  obtain ⟨hi, htimeStep⟩ := indexOfTimeStep_eq_ok_iff.mp hposition
  obtain ⟨record, hlookup, hdecodes⟩ := hopened.decodesTo hi
  have hrecord : record.timeStep = timeStep := by
    rw [hopened.timeStepAt_eq hi] at htimeStep
    rw [hdecodes.timeStep]
    exact Except.ok.inj htimeStep
  exact ⟨record, hlookup, (lookupByTimeStep_of_index hposition).trans hlookup, hrecord⟩

theorem lookupByTimeStep_correct_sample :
    ∃ s, load {} "flow.xtr" (some (Recording.sample .four).encode) = .ok s ∧
      s.indexOfTimeStep 9 = .ok 1 ∧
      s.lookupByTimeStep 9 = .ok (Recording.sampleRecord 9 1005) ∧
      s.lookupByTimeStep 8 = .error (.timeStepNotFound 8) := by
  have hwell := Recording.wellFormed_sample .four
  have hload := hwell.load_eq "flow.xtr"
  have hfound := lookupByTimeStep_correct hload 9
  have hlt : 1 < (hwell.series "flow.xtr").timeCount := by
    rw [hwell.timeCount_series]
    decide
  have hnot : (8 : UInt64) ∉ (hwell.series "flow.xtr").times := by
    rw [hwell.times_series]
    decide
  have htimeStep : (hwell.series "flow.xtr").timeStepAt 1 = .ok 9 :=
    hwell.timeStepAt_series "flow.xtr" (Eq.refl (Recording.sample .four).frames[1]?)
  have hindex := (hfound.index_iff 1).mpr ⟨hlt, htimeStep⟩
  obtain ⟨record, hrecord, hvalue, -⟩ := hfound.lookup 1 hindex
  have hsample := (Recording.lookup_sampleRecord "flow.xtr" (i := 1) rfl).1
  obtain rfl := Except.ok.inj (hsample.symm.trans hrecord)
  exact ⟨_, hload, hindex, hvalue, ((lookupByTimeStep_correct hload 8).missing hnot).2⟩

end LatticeSeries.Series
