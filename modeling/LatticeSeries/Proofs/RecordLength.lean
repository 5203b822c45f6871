import LatticeSeries.Proofs.CheckedLookup
import LatticeSeries.Proofs.FieldHeaderGrammar
import LatticeSeries.Proofs.Preamble

/-!
# The length of a record is exact

An entry of the field header takes a least number of bytes, and the header counts
its own bytes by a word of 32 bits. Therefore so few fields can be declared that
the length of a row fits a word of 64 bits, whatever the entries say, and adding
it up never wraps. Only the product with the number of sites may leave the word;
it does so exactly if the true length of a record does, and then the file is
refused. Every other file has the true length, so the faults of an index with
too short a record or too short a file are never seen.
-/
namespace LatticeSeries

-- Sums of sizes are those of core.
attribute [local instance (2000)] Zero.ofOfNat0

namespace FieldEntry

/-- The bytes that an entry takes at least, those of an entry with an empty name. -/
def leastLength : Version → Nat
  | .three => 8
  | .four => 16

variable {version : Version}

theorem leastLength_le {e : FieldEntry} (h : e.Storable version) :
    leastLength version ≤ e.encode.length := by
  cases version with
  | three => exact e.eight_le_length_encode
  | four =>
    obtain ⟨baseline, hb⟩ := Option.isSome_iff_exists.mp (h.baseline.mpr rfl)
    have htext := Xdr.four_le_length_encodeText e.name
    have hnumber : baseline.toBytes.length = 8 := Ieee.Number.length_toBytes baseline
    simp only [encode, hb, Option.map_some, Option.getD_some, List.length_append,
      length_bytesOfU32, hnumber, leastLength]
    omega

theorem leastLength_mul_length_le {es : List FieldEntry} (h : ∀ e ∈ es, e.Storable version) :
    leastLength version * es.length ≤ (es.flatMap encode).length := by
  induction es with
  | nil => exact Nat.zero_le _
  | cons e es ih =>
    obtain ⟨hfirst, hrest⟩ := List.forall_mem_cons.mp h
    have hentry := leastLength_le hfirst
    have hentries := ih hrest
    rw [List.flatMap_cons, List.length_append, List.length_cons, Nat.mul_succ]
    omega

end FieldEntry

/-- A table that declares the first fields of another has no longer rows. -/
theorem FieldTable.rowLength_le_of_prefix {t u : FieldTable} (h : t.declared <+: u.declared) :
    t.rowLength ≤ u.rowLength := by
  obtain ⟨ds, hds⟩ := h
  rw [rowLength_eq, rowLength_eq, ← hds, List.map_append, List.sum_append]
  omega

namespace Checked

theorem add_eq_error {a b : Nat} (h : UInt64.size ≤ a + b) : add a b = .error .overflow :=
  if_neg (Nat.not_lt.mpr h)

theorem mul_eq_error {a b : Nat} (h : UInt64.size ≤ a * b) : mul a b = .error .overflow :=
  if_neg (Nat.not_lt.mpr h)

/-- Judging the product and the sum one after the other judges the true length. -/
theorem recordLength_eq_ok {t : FieldTable} {header : Header} (h : t.rowLength < UInt64.size) :
    recordLength t header = .ok (Series.recordLengthOf t header) := by
  rw [recordLength, rowLength_eq_ok h, ok_bind, Series.recordLengthOf]
  rcases Nat.lt_or_ge (t.rowLength * header.siteCount.toNat) UInt64.size with hrows | hrows
  · rw [mul_eq_ok hrows, ok_bind]
    rcases Nat.lt_or_ge (t.rowLength * header.siteCount.toNat + TimeIndex.markerLength)
      UInt64.size with hlength | hlength
    · rw [add_eq_ok hlength, if_pos hlength]
      rfl
    · rw [add_eq_error hlength, if_neg (Nat.not_lt.mpr hlength)]
      rfl
  · have hlength : UInt64.size ≤
        t.rowLength * header.siteCount.toNat + TimeIndex.markerLength :=
      Nat.le_trans hrows (Nat.le_add_right _ _)
    rw [mul_eq_error hrows, error_bind, if_neg (Nat.not_lt.mpr hlength)]
    rfl

end Checked

theorem Series.recordLengthOf_eq_error_iff {table : FieldTable} {header : Header} {e : Error} :
    recordLengthOf table header = .error e ↔
      e = .corruptHeader (.recordLengthOverflow header.siteCount) ∧
        UInt64.size ≤ table.rowLength * header.siteCount.toNat + TimeIndex.markerLength := by
  unfold recordLengthOf
  dsimp only
  split_ifs with h
  · simp [Nat.not_le.mpr h]
  · simp [Nat.le_of_not_lt h, eq_comm]

/-- The faults of an index that is built with too short a record, or of a file
that ends inside the headers. -/
def Error.ConcernsFraming : Error → Prop
  | .corruptHeader (.recordLengthBelowMarker _) | .truncated .headers .. => True
  | _ => False

theorem Header.not_concernsFraming_of_decode {bytes : Bytes} {e : Error}
    (h : decode bytes = .error e) : ¬e.ConcernsFraming := by
  unfold decode at h
  dsimp only at h
  split_ifs at h
  · cases h
    exact id
  · cases h
    exact id
  · cases h
    exact id
  · split at h
    · cases h
      exact id
    · cases h

theorem Series.not_concernsFraming_of_checkLimits {limits : Limits} {header : Header} {e : Error}
    (h : checkLimits limits header = .error e) : ¬e.ConcernsFraming := by
  simp only [checkLimits, bind_eq_error_iff, Limits.check_eq_error_iff] at h
  rcases h with ⟨-, rfl⟩ | ⟨_, -, ⟨-, rfl⟩ | ⟨_, -, -, rfl⟩⟩
  · exact id
  · exact id
  · exact id

theorem FieldHeader.Refused.not_concernsFraming {header : Header} {limits : Limits}
    {bytes : Bytes} {e : Error} (h : Refused header limits bytes e) : ¬e.ConcernsFraming := by
  cases h with
  | cut _ => exact id
  | excess _ _ _ _ _ => exact id
  | entry _ _ _ _ hoffends =>
    cases hoffends with
    | name hfault => cases hfault <;> exact id
    | _ => exact id

theorem Error.ConcernsBody.not_concernsFraming {e : Error} (h : e.ConcernsBody) :
    ¬e.ConcernsFraming := by
  cases e with
  | corruptBody _ _ _ => exact id
  | unorderedTimeSteps _ _ _ => exact id
  | _ => exact absurd h id

theorem Preamble.not_concernsFraming_of_ofBytes {limits : Limits} {bytes : Bytes} {e : Error}
    (h : ofBytes limits bytes = .error e) : ¬e.ConcernsFraming := by
  rcases bind_eq_error_iff.mp h with h | ⟨header, -, h⟩
  · exact Header.not_concernsFraming_of_decode h
  rcases bind_eq_error_iff.mp h with h | ⟨_, -, h⟩
  · exact Series.not_concernsFraming_of_checkLimits h
  rcases bind_eq_error_iff.mp h with h | ⟨fields, -, h⟩
  · exact (FieldHeader.decode_eq_error_iff.mp h).not_concernsFraming
  rcases bind_eq_error_iff.mp h with h | ⟨_, -, h⟩
  · obtain ⟨rfl, -⟩ := Series.recordLengthOf_eq_error_iff.mp h
    exact id
  · cases h

theorem Series.not_concernsFraming_of_load {limits : Limits} {path : String}
    {content? : Option Bytes} {e : Error} (h : load limits path content? = .error e) :
    ¬e.ConcernsFraming := by
  have hlimits : ∀ {e : Error}, limits.validate.mapError Error.settings = .error e →
      ¬e.ConcernsFraming := by
    intro e he
    obtain ⟨fault, -, rfl⟩ := mapError_eq_error_iff.mp he
    exact id
  cases content? with
  | none =>
    rcases bind_eq_error_iff.mp h with h | ⟨_, -, h⟩
    · exact hlimits h
    · cases h
      exact id
  | some bytes =>
    rw [load_some_eq] at h
    rcases bind_eq_error_iff.mp h with h | ⟨_, -, h⟩
    · exact hlimits h
    rcases bind_eq_error_iff.mp h with h | ⟨p, hp, h⟩
    · exact Preamble.not_concernsFraming_of_ofBytes h
    · exact (Preamble.openBody_eq_error hp
        (Preamble.ofBytes_eq_ok hp).2.1 h).not_concernsFraming

/-- The limits are valid, and under them the two headers of the file are accepted. -/
structure HeadersAccepted (limits : Limits) (bytes : Bytes) (header : Header)
    (fields : FieldHeader) : Prop where
  limits_valid : limits.validate = .ok ()
  decode_header : Header.decode bytes = .ok header
  within : Series.checkLimits limits header = .ok ()
  decode_fields : FieldHeader.decode header limits (bytes.drop Header.length) = .ok fields

namespace HeadersAccepted

variable {limits : Limits} {bytes : Bytes} {header : Header} {fields : FieldHeader}

/-- What is left of opening such a file. -/
theorem load_eq (h : HeadersAccepted limits bytes header fields) (path : String) :
    Series.load limits path (some bytes) =
      Series.recordLengthOf fields.table header >>= fun recordLength =>
        Preamble.openBody ⟨header, fields, recordLength⟩ path bytes := by
  rw [Series.load_some_eq, Preamble.ofBytes, h.limits_valid, h.decode_header, ok_bind, h.within,
    ok_bind, h.decode_fields, ok_bind]
  change (Series.recordLengthOf fields.table header >>= fun recordLength => _) >>= _ = _
  rw [bind_assoc]
  rfl

theorem ofBytes_preamble (h : HeadersAccepted limits bytes header fields) {recordLength : Nat}
    (hlength : Series.recordLengthOf fields.table header = .ok recordLength) :
    Preamble.ofBytes limits bytes = .ok ⟨header, fields, recordLength⟩ := by
  rw [Preamble.ofBytes, h.decode_header, ok_bind, h.within, ok_bind, h.decode_fields, ok_bind,
    hlength]
  rfl

theorem totalLength_le (h : HeadersAccepted limits bytes header fields) :
    header.totalLength ≤ bytes.length := by
  obtain ⟨hle, -⟩ := FieldHeader.decode_eq_ok_iff.mp h.decode_fields
  have hmain : Header.length ≤ bytes.length := by
    by_contra hshort
    have hdecode := Header.decode_of_length_lt (Nat.lt_of_not_le hshort)
    rw [h.decode_header] at hdecode
    cases hdecode
  rw [List.length_drop] at hle
  rw [Header.totalLength]
  omega

theorem exists_entries (h : HeadersAccepted limits bytes header fields) :
    ∃ es, fields.MadeOf header.version es ∧ es.length = header.fieldCount.toNat ∧
      (es.flatMap FieldEntry.encode).length = header.fieldHeaderLength.toNat := by
  obtain ⟨hle, es, hmade, hcount, -, htake⟩ := FieldHeader.decode_eq_ok_iff.mp h.decode_fields
  refine ⟨es, hmade, hcount, ?_⟩
  rw [← htake, List.length_take, Nat.min_eq_left hle]

theorem rowLength_lt (h : HeadersAccepted limits bytes header fields) :
    fields.table.rowLength < UInt64.size := by
  obtain ⟨es, hmade, -, hlength⟩ := h.exists_entries
  exact hmade.rowLength_lt (hlength ▸ header.fieldHeaderLength.toNat_lt)

/-- Behind sound headers only the length of a record is left as a fault of the header. -/
theorem load_eq_corruptHeader_iff (h : HeadersAccepted limits bytes header fields) (path : String)
    {fault : HeaderFault} :
    Series.load limits path (some bytes) = .error (.corruptHeader fault) ↔
      fault = .recordLengthOverflow header.siteCount ∧
        UInt64.size ≤ fields.table.rowLength * header.siteCount.toNat + TimeIndex.markerLength := by
  rw [h.load_eq path, bind_eq_error_iff, Series.recordLengthOf_eq_error_iff,
    Error.corruptHeader.injEq]
  constructor
  · intro hload
    rcases hload with hoverflow | ⟨recordLength, hlength, hbody⟩
    · exact hoverflow
    · exact absurd (Preamble.openBody_eq_error (h.ofBytes_preamble hlength) h.totalLength_le hbody)
        id
  · exact .inl

theorem recordLength_of_load (h : HeadersAccepted limits bytes header fields) {path : String}
    {s : Series} (hload : Series.load limits path (some bytes) = .ok s) :
    s.recordLength = fields.table.rowLength * header.siteCount.toNat + TimeIndex.markerLength := by
  rw [h.load_eq path] at hload
  obtain ⟨recordLength, hlength, hbody⟩ := bind_eq_ok_iff.mp hload
  obtain ⟨_, -, rfl⟩ := map_eq_ok_iff.mp hbody
  exact (Series.recordLengthOf_eq_ok_iff.mp hlength).1

end HeadersAccepted

/-- The lengths in a file with these headers are those of unbounded arithmetic. The entries
bound the number of fields, the length of a row is the sum of its fields and fits a word
at every stage of declaring them, and the file is refused for the length of its records
exactly if the true length needs more than a word. -/
structure Series.ExactLengths (limits : Limits) (path : String) (bytes : Bytes) (header : Header)
    (fields : FieldHeader) : Prop where
  length_declared : fields.table.declared.length = header.fieldCount.toNat
  leastLength_le : FieldEntry.leastLength header.version * header.fieldCount.toNat ≤
    header.fieldHeaderLength.toNat
  rowLength_eq : fields.table.rowLength =
    12 + (fields.table.declared.map fun d => d.diskType.size * d.length.toNat).sum
  rowLength_lt : fields.table.rowLength < UInt64.size
  checked_rowLength : ∀ t : FieldTable, t.declared <+: fields.table.declared →
    Checked.rowLength t = .ok t.rowLength
  checked_recordLength :
    Checked.recordLength fields.table header = .ok (recordLengthOf fields.table header)
  totalLength_le : header.totalLength ≤ bytes.length
  refused_iff : ∀ fault, load limits path (some bytes) = .error (.corruptHeader fault) ↔
    fault = .recordLengthOverflow header.siteCount ∧
      UInt64.size ≤ fields.table.rowLength * header.siteCount.toNat + 8
  recordLengthOf_eq : fields.table.rowLength * header.siteCount.toNat + 8 < UInt64.size →
    recordLengthOf fields.table header = .ok (fields.table.rowLength * header.siteCount.toNat + 8)
  recordLength_eq : ∀ s, load limits path (some bytes) = .ok s →
    s.recordLength = fields.table.rowLength * header.siteCount.toNat + 8 ∧ 8 ≤ s.recordLength

theorem HeadersAccepted.exactLengths {limits : Limits} {bytes : Bytes} {header : Header}
    {fields : FieldHeader} (h : HeadersAccepted limits bytes header fields) (path : String) :
    Series.ExactLengths limits path bytes header fields := by
  obtain ⟨es, hmade, hcount, hlength⟩ := h.exists_entries
  have hrow := h.rowLength_lt
  refine
    { length_declared := ?_
      leastLength_le := ?_
      rowLength_eq := fields.table.rowLength_eq
      rowLength_lt := hrow
      checked_rowLength := ?_
      checked_recordLength := Checked.recordLength_eq_ok hrow
      totalLength_le := h.totalLength_le
      refused_iff := fun fault => h.load_eq_corruptHeader_iff path
      recordLengthOf_eq := fun hfits => Series.recordLengthOf_eq_ok_iff.mpr ⟨rfl, hfits⟩
      recordLength_eq := ?_ }
  · rw [hmade.declared, List.length_map, hcount]
  · rw [← hcount, ← hlength]
    exact FieldEntry.leastLength_mul_length_le hmade.storable
  · intro t ht
    exact Checked.rowLength_eq_ok (Nat.lt_of_le_of_lt (FieldTable.rowLength_le_of_prefix ht) hrow)
  · intro s hs
    have hexact := h.recordLength_of_load hs
    exact ⟨hexact, hexact ▸ Nat.le_add_left _ _⟩

/-- The lengths in a file with sound headers are exact. No file is refused because its
records are shorter than a marker or because it ends before its headers do. -/
structure Series.LengthsExact (limits : Limits) (path : String) (bytes : Bytes) : Prop where
  accepted : ∀ header fields, HeadersAccepted limits bytes header fields →
    ExactLengths limits path bytes header fields
  ne_belowMarker : ∀ n,
    load limits path (some bytes) ≠ .error (.corruptHeader (.recordLengthBelowMarker n))
  ne_truncated : ∀ expected actual,
    load limits path (some bytes) ≠ .error (.truncated .headers expected actual)

/-- The lengths that opening computes are those of unbounded arithmetic. -/
theorem Series.recordLength_exact (limits : Limits) (path : String) (bytes : Bytes) :
    LengthsExact limits path bytes where
  accepted _ _ h := h.exactLengths path
  ne_belowMarker _ h := not_concernsFraming_of_load h trivial
  ne_truncated _ _ h := not_concernsFraming_of_load h trivial

/-- A header of the third version without fields, for as many sites as a word counts. -/
def Header.crowded : Header where
  applicationMagic := Magic.application
  extractionMagic := Magic.extraction
  version := .three
  voxelSize := .zero
  origin := ⟨.zero, .zero, .zero⟩
  siteCount := 0xffffffffffffffff
  fieldCount := 0
  fieldHeaderLength := 0

theorem Series.recordLength_exact_sample :
    (∃ s, load {} "flow.xtr" (some (Recording.sample .four).encode) = .ok s ∧
      s.recordLength = 48) ∧
    load {} "crowded.xtr" (some Header.crowded.encode) =
      .error (.corruptHeader (.recordLengthOverflow 0xffffffffffffffff)) := by
  constructor
  · have hwell := Recording.wellFormed_sample .four
    have hopened := hwell.opened "flow.xtr"
    have hload := hwell.load_eq "flow.xtr"
    have hexact := recordLength_exact {} "flow.xtr" (Recording.sample .four).encode
    have hlengths := hexact.accepted _ _
      ⟨hopened.limits_valid, hopened.header, hopened.within, hopened.fields⟩
    exact ⟨_, hload, (hlengths.recordLength_eq _ hload).1⟩
  · have hexact := recordLength_exact {} "crowded.xtr" Header.crowded.encode
    have haccepted : HeadersAccepted {} Header.crowded.encode Header.crowded ⟨.empty, .absolute⟩ :=
      ⟨rfl, by decide +kernel, rfl, rfl⟩
    exact ((hexact.accepted _ _ haccepted).refused_iff _).mpr ⟨rfl, by decide +kernel⟩

end LatticeSeries
