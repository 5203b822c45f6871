import LatticeSeries.Proofs.RoundTrip

/-!
# The preamble of a file

A file is opened in two stages. The preamble is what the main header and the
field header say, together with the length of a record; the body is indexed
afterwards, and the limits play no part in that. The first stage does not look
past the headers. Two files with the same headers are therefore refused for the
same reason or opened with the same preamble, and a body is at fault only when it
is not a whole number of records or its time steps do not ascend.
-/
namespace LatticeSeries

namespace Header

theorem slice_take {bytes : Bytes} {start width n : Nat} (h : start + width ≤ n) :
    slice (bytes.take n) start width = slice bytes start width := by
  rw [slice, slice, List.drop_take, List.take_take, Nat.min_eq_left]
  omega

/-- The main header is decoded from its sixty bytes. -/
theorem decode_take {bytes : Bytes} {n : Nat} (hbytes : length ≤ bytes.length) (hn : length ≤ n) :
    decode (bytes.take n) = decode bytes := by
  have hn : 60 ≤ n := hn
  have hshort : ¬bytes.length < length := Nat.not_lt.mpr hbytes
  have hshort' : ¬(bytes.take n).length < length := by
    rw [List.length_take]
    exact Nat.not_lt.mpr (Nat.le_min.mpr ⟨hn, hbytes⟩)
  rw [decode, decode, if_neg hshort, if_neg hshort']
  simp only [slice_take (show 0 + 4 ≤ n by omega), slice_take (show 4 + 4 ≤ n by omega),
    slice_take (show 8 + 4 ≤ n by omega), slice_take (show 12 + 8 ≤ n by omega),
    slice_take (show 20 + 8 ≤ n by omega), slice_take (show 28 + 8 ≤ n by omega),
    slice_take (show 36 + 8 ≤ n by omega), slice_take (show 44 + 8 ≤ n by omega),
    slice_take (show 52 + 4 ≤ n by omega), slice_take (show 56 + 4 ≤ n by omega)]

theorem decode_of_length_lt {bytes : Bytes} (h : bytes.length < length) :
    decode bytes = .error (.truncated .mainHeader length bytes.length) :=
  if_pos h

/-- The front of the file has the right magic numbers and a version that exists. -/
def HasFormat (bytes : Bytes) : Prop :=
  u32OfBytes (slice bytes 0 4) = Magic.application ∧
    u32OfBytes (slice bytes 4 4) = Magic.extraction ∧
    (u32OfBytes (slice bytes 8 4) = 3 ∨ u32OfBytes (slice bytes 8 4) = 4)

instance (bytes : Bytes) : Decidable (HasFormat bytes) := inferInstanceAs (Decidable (_ ∧ _))

theorem fieldHeaderLength_of_decode {bytes : Bytes} {h : Header} (hd : decode bytes = .ok h) :
    h.fieldHeaderLength = u32OfBytes (slice bytes 56 4) := by
  unfold decode at hd
  dsimp only at hd
  split_ifs at hd
  split at hd
  · cases hd
  · cases hd
    rfl

/-- Twelve bytes decide about a file that is of another format. -/
theorem exists_decode_eq_error {bytes bytes' : Bytes} (hbytes : length ≤ bytes.length)
    (hbytes' : length ≤ bytes'.length) (htake : bytes.take 12 = bytes'.take 12)
    (hformat : ¬HasFormat bytes) : ∃ e, decode bytes = .error e ∧ decode bytes' = .error e := by
  have hslice : ∀ start, start + 4 ≤ 12 → slice bytes' start 4 = slice bytes start 4 := by
    intro start hstart
    rw [← slice_take hstart, ← htake, slice_take hstart]
  rw [decode, decode, if_neg (Nat.not_lt.mpr hbytes), if_neg (Nat.not_lt.mpr hbytes')]
  dsimp only
  rw [hslice 0 (by omega), hslice 4 (by omega), hslice 8 (by omega)]
  by_cases happlication : u32OfBytes (slice bytes 0 4) = Magic.application
  · by_cases hextraction : u32OfBytes (slice bytes 4 4) = Magic.extraction
    · have hversion : Version.ofNumber? (u32OfBytes (slice bytes 8 4)) = none := by
        have hnot := fun h => hformat ⟨happlication, hextraction, h⟩
        rw [Version.ofNumber?, if_neg fun h => hnot (.inl h), if_neg fun h => hnot (.inr h)]
      simp only [if_neg (not_not.mpr happlication), if_neg (not_not.mpr hextraction), hversion]
      exact ⟨_, rfl, rfl⟩
    · simp only [if_neg (not_not.mpr happlication), if_pos hextraction]
      exact ⟨_, rfl, rfl⟩
  · simp only [if_pos happlication]
    exact ⟨_, rfl, rfl⟩

end Header

/-- The field header is decoded from the bytes that it declares. -/
theorem FieldHeader.decode_take {header : Header} {limits : Limits} {bytes : Bytes} {n : Nat}
    (hbytes : header.fieldHeaderLength.toNat ≤ bytes.length)
    (hn : header.fieldHeaderLength.toNat ≤ n) :
    decode header limits (bytes.take n) = decode header limits bytes := by
  have hshort' : ¬(bytes.take n).length < header.fieldHeaderLength.toNat := by
    rw [List.length_take]
    exact Nat.not_lt.mpr (Nat.le_min.mpr ⟨hn, hbytes⟩)
  rw [decode, decode, if_neg (Nat.not_lt.mpr hbytes), if_neg hshort', List.take_take,
    Nat.min_eq_left hn]

theorem FieldHeader.decode_of_length_lt {header : Header} {limits : Limits} {bytes : Bytes}
    (h : bytes.length < header.fieldHeaderLength.toNat) :
    decode header limits bytes =
      .error (.corruptHeader (.fieldHeaderCut header.fieldHeaderLength.toNat bytes.length)) :=
  if_pos h

/-- What the two files say outside their bodies is the same. -/
structure Series.SameHeaders (s t : Series) : Prop where
  header : s.header = t.header
  table : s.table = t.table
  coding : s.coding = t.coding
  recordLength : s.recordLength = t.recordLength

namespace Series.SameHeaders

theorem symm {s t : Series} (h : s.SameHeaders t) : t.SameHeaders s :=
  ⟨h.header.symm, h.table.symm, h.coding.symm, h.recordLength.symm⟩

theorem trans {s t u : Series} (h : s.SameHeaders t) (h' : t.SameHeaders u) : s.SameHeaders u :=
  ⟨h.header.trans h'.header, h.table.trans h'.table, h.coding.trans h'.coding,
    h.recordLength.trans h'.recordLength⟩

end Series.SameHeaders

/-- The faults of a body that follows sound headers. -/
def Error.ConcernsBody : Error → Prop
  | .corruptBody .. | .unorderedTimeSteps .. => True
  | _ => False

structure Preamble where
  header : Header
  fields : FieldHeader
  recordLength : Nat

namespace Preamble

/-- The bytes of the two headers, as the front of the file announces them. The
rest of the main header need not be sound. -/
def length (bytes : Bytes) : Nat :=
  Header.length + (u32OfBytes (Header.slice bytes 56 4)).toNat

def ofBytes (limits : Limits) (bytes : Bytes) : Except Error Preamble := do
  let header ← Header.decode bytes
  Series.checkLimits limits header
  let fields ← FieldHeader.decode header limits (bytes.drop Header.length)
  let recordLength ← Series.recordLengthOf fields.table header
  return { header, fields, recordLength }

/-- The file that has this preamble and the indexed time steps. -/
def series (p : Preamble) (path : String) (bytes : Bytes) (index : TimeIndex) : Series where
  path := path
  bytes := bytes
  header := p.header
  table := p.fields.table
  coding := p.fields.coding
  recordLength := p.recordLength
  index := index

/-- Indexes the body of a file that begins with this preamble. -/
def openBody (p : Preamble) (path : String) (bytes : Bytes) : Except Error Series :=
  (TimeIndex.build bytes p.header.totalLength p.recordLength).map (p.series path bytes)

theorem length_take {bytes : Bytes} {n : Nat} (hn : Header.length ≤ n) :
    length (bytes.take n) = length bytes := by
  have hn : 56 + 4 ≤ n := hn
  rw [length, length, Header.slice_take hn]

variable {limits : Limits} {bytes : Bytes}

/-- The first stage looks at the two headers only. -/
theorem ofBytes_take {n : Nat} (hbytes : length bytes ≤ bytes.length) (hn : length bytes ≤ n) :
    ofBytes limits (bytes.take n) = ofBytes limits bytes := by
  have hmain : Header.length ≤ length bytes := Nat.le_add_right _ _
  rw [ofBytes, ofBytes, Header.decode_take (Nat.le_trans hmain hbytes) (Nat.le_trans hmain hn)]
  apply bind_congr_ok
  intro header hheader
  have hlength : length bytes = Header.length + header.fieldHeaderLength.toNat := by
    rw [Header.fieldHeaderLength_of_decode hheader, length]
  have hrest : header.fieldHeaderLength.toNat ≤ (bytes.drop Header.length).length := by
    rw [List.length_drop]
    omega
  rw [List.drop_take, FieldHeader.decode_take hrest (by omega)]

theorem length_congr {bytes' : Bytes}
    (htake : bytes.take (length bytes) = bytes'.take (length bytes)) :
    length bytes' = length bytes := by
  have hmain : Header.length ≤ length bytes := Nat.le_add_right _ _
  rw [← length_take hmain, ← htake, length_take hmain]

theorem ofBytes_congr {bytes' : Bytes} (hbytes : length bytes ≤ bytes.length)
    (hbytes' : length bytes ≤ bytes'.length)
    (htake : bytes.take (length bytes) = bytes'.take (length bytes)) :
    ofBytes limits bytes' = ofBytes limits bytes := by
  have hlength := length_congr htake
  calc ofBytes limits bytes' = ofBytes limits (bytes'.take (length bytes)) :=
        (ofBytes_take (hlength ▸ hbytes') (Nat.le_of_eq hlength)).symm
    _ = ofBytes limits (bytes.take (length bytes)) := by rw [htake]
    _ = ofBytes limits bytes := ofBytes_take hbytes (Nat.le_refl _)

theorem ofBytes_eq_ok {p : Preamble} (h : ofBytes limits bytes = .ok p) :
    p.header.totalLength = length bytes ∧ p.header.totalLength ≤ bytes.length ∧
      TimeIndex.markerLength ≤ p.recordLength := by
  simp only [ofBytes, bind_eq_ok_iff, Series.recordLengthOf_eq_ok_iff] at h
  obtain ⟨header, hheader, _, _, fields, hfields, recordLength, ⟨hrecord, _⟩, h⟩ := h
  cases h
  obtain ⟨hmain, -⟩ := FieldHeader.decode_eq_ok_iff.mp hfields
  have hlong : Header.length ≤ bytes.length := by
    by_contra hshort
    rw [Header.decode_of_length_lt (Nat.lt_of_not_le hshort)] at hheader
    cases hheader
  rw [List.length_drop] at hmain
  refine ⟨?_, ?_, ?_⟩
  · rw [Header.totalLength, Header.fieldHeaderLength_of_decode hheader, length]
  · change Header.length + header.fieldHeaderLength.toNat ≤ bytes.length
    omega
  · rw [hrecord]
    exact Nat.le_add_left _ _

/-- A body is indexed unless it is no whole number of records or does not ascend. -/
theorem openBody_eq_error {p : Preamble} (hp : ofBytes limits bytes = .ok p) {bytes' : Bytes}
    (hbytes' : p.header.totalLength ≤ bytes'.length) {path : String} {e : Error}
    (h : p.openBody path bytes' = .error e) : e.ConcernsBody := by
  have hmarker := (ofBytes_eq_ok hp).2.2
  have hbuild : TimeIndex.build bytes' p.header.totalLength p.recordLength = .error e :=
    map_eq_error_iff.mp h
  by_cases hresidual : (bytes'.length - p.header.totalLength) % p.recordLength = 0
  · rw [TimeIndex.build_of_whole hmarker hbytes' hresidual,
      TimeIndex.ofEntries_eq_error_iff] at hbuild
    obtain ⟨index, previous, current, -, rfl⟩ := hbuild
    trivial
  · rw [TimeIndex.build_of_residual hmarker hbytes' hresidual] at hbuild
    cases hbuild
    trivial

/-- Whatever the body, the open file has what the preamble says. -/
theorem sameHeaders_of_openBody {p : Preamble} {path path' : String} {bytes' : Bytes} {s t : Series}
    (hs : p.openBody path bytes = .ok s) (ht : p.openBody path' bytes' = .ok t) :
    s.SameHeaders t := by
  obtain ⟨_, -, rfl⟩ := map_eq_ok_iff.mp hs
  obtain ⟨_, -, rfl⟩ := map_eq_ok_iff.mp ht
  exact ⟨rfl, rfl, rfl, rfl⟩

theorem header_of_openBody {p : Preamble} {path : String} {s : Series}
    (h : p.openBody path bytes = .ok s) : s.header = p.header ∧ s.table = p.fields.table := by
  obtain ⟨_, -, rfl⟩ := map_eq_ok_iff.mp h
  exact ⟨rfl, rfl⟩

end Preamble

namespace Series

theorem ofBytes_eq (limits : Limits) (path : String) (bytes : Bytes) :
    ofBytes limits path bytes =
      Preamble.ofBytes limits bytes >>= fun p => p.openBody path bytes := by
  simp only [ofBytes, Preamble.ofBytes, Preamble.openBody, bind_assoc, pure_bind]
  rfl

variable {limits : Limits} {path path' : String} {bytes bytes' : Bytes}

theorem load_some_eq (limits : Limits) (path : String) (bytes : Bytes) :
    load limits path (some bytes) = limits.validate.mapError Error.settings >>= fun _ =>
      Preamble.ofBytes limits bytes >>= fun p => p.openBody path bytes := by
  rw [← ofBytes_eq]
  rfl

theorem exists_preamble {s : Series} (h : load limits path (some bytes) = .ok s) :
    ∃ p, Preamble.ofBytes limits bytes = .ok p ∧ p.openBody path bytes = .ok s := by
  rw [load_some_eq] at h
  obtain ⟨-, -, h⟩ := bind_eq_ok_iff.mp h
  exact bind_eq_ok_iff.mp h

/-- A fault that does not concern the body is the same for all files with the preamble. -/
theorem load_eq_error_of_preamble {e : Error} (h : load limits path (some bytes) = .error e)
    (he : ¬e.ConcernsBody)
    (hpreamble : Preamble.ofBytes limits bytes' = Preamble.ofBytes limits bytes) :
    load limits path' (some bytes') = .error e := by
  rw [load_some_eq] at h ⊢
  rw [hpreamble]
  rcases bind_eq_error_iff.mp h with hlimits | ⟨u, hlimits, h⟩
  · rw [hlimits, error_bind]
  · rw [hlimits, ok_bind]
    rcases bind_eq_error_iff.mp h with hp | ⟨p, hp, hbody⟩
    · rw [hp, error_bind]
    · exact absurd (Preamble.openBody_eq_error hp (Preamble.ofBytes_eq_ok hp).2.1 hbody) he

/-- What two files say that agree up to the end of their headers: a fault that does not
concern the body of one is the fault of the other, and where one is open the other has
the same headers or a fault of its body. -/
structure SameVerdict (limits : Limits) (path path' : String) (bytes bytes' : Bytes) :
    Prop where
  error : ∀ e, load limits path (some bytes) = .error e → ¬e.ConcernsBody →
    load limits path' (some bytes') = .error e
  sameHeaders : ∀ s t, load limits path (some bytes) = .ok s →
    load limits path' (some bytes') = .ok t → s.SameHeaders t
  concernsBody : ∀ s e, load limits path (some bytes) = .ok s →
    load limits path' (some bytes') = .error e → e.ConcernsBody

theorem sameVerdict_of_preamble
    (h : Preamble.ofBytes limits bytes' = Preamble.ofBytes limits bytes) :
    SameVerdict limits path path' bytes bytes' where
  error := fun _ he hbody => load_eq_error_of_preamble he hbody h
  sameHeaders := by
    intro s t hs ht
    obtain ⟨p, hp, hs⟩ := exists_preamble hs
    obtain ⟨q, hq, ht⟩ := exists_preamble ht
    obtain rfl : p = q := Except.ok.inj (hp.symm.trans (h.symm.trans hq))
    exact Preamble.sameHeaders_of_openBody hs ht
  concernsBody := by
    intro s e hs he
    by_contra hbody
    rw [load_eq_error_of_preamble he hbody h.symm] at hs
    cases hs

/-- The headers alone decide whether a file is refused for its headers, and what
the open file says about its fields. Twelve bytes are enough when the format is
not the right one; otherwise the bytes that the main header announces are. A body
can only be no whole number of records or have time steps that do not ascend. -/
theorem headers_decide (limits : Limits) (path path' : String)
    (hbytes : Header.length ≤ bytes.length) (hbytes' : Header.length ≤ bytes'.length) :
    (bytes.take 12 = bytes'.take 12 → ¬Header.HasFormat bytes →
      ∃ e, load limits path (some bytes) = .error e ∧
        load limits path' (some bytes') = .error e) ∧
    (Preamble.length bytes ≤ bytes.length → Preamble.length bytes ≤ bytes'.length →
      bytes.take (Preamble.length bytes) = bytes'.take (Preamble.length bytes) →
      SameVerdict limits path path' bytes bytes') := by
  constructor
  · intro htake hformat
    obtain ⟨e, he, he'⟩ := Header.exists_decode_eq_error hbytes hbytes' htake hformat
    rw [load_some_eq, load_some_eq, Preamble.ofBytes, Preamble.ofBytes, he, he']
    cases limits.validate.mapError Error.settings with
    | error fault => exact ⟨fault, rfl, rfl⟩
    | ok u => exact ⟨e, rfl, rfl⟩
  · intro hlength hlength' htake
    exact sameVerdict_of_preamble (Preamble.ofBytes_congr hlength hlength' htake)

theorem headers_decide_sample :
    let zeros : Bytes := List.replicate 60 0
    let file := (Recording.sample .four).encode
    let cut := file.take (Preamble.length file) ++ [0]
    (∃ e, load {} "zeros" (some zeros) = .error e ∧
      load {} "more" (some (zeros ++ [1])) = .error e) ∧
      (∃ s, load {} "flow.xtr" (some file) = .ok s) ∧
      ∀ e, load {} "cut" (some cut) = .error e → e.ConcernsBody := by
  intro zeros file cut
  have hload := (Recording.wellFormed_sample .four).load_eq "flow.xtr"
  obtain ⟨hformat, -⟩ := headers_decide {} "zeros" "more"
    (show Header.length ≤ zeros.length by decide)
    (show Header.length ≤ (zeros ++ [1]).length by decide)
  obtain ⟨-, hheaders⟩ := headers_decide {} "flow.xtr" "cut"
    (show Header.length ≤ file.length by decide +kernel)
    (show Header.length ≤ cut.length by decide +kernel)
  have hsame := hheaders (by decide +kernel) (by decide +kernel) (by decide +kernel)
  exact ⟨hformat (by decide) (by decide), ⟨_, hload⟩,
    fun e he => hsame.concernsBody _ e hload he⟩

end Series

end LatticeSeries
