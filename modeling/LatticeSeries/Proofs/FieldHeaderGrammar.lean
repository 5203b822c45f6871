import LatticeSeries.Proofs.FieldHeaderCodec
import LatticeSeries.Proofs.XdrFaults

/-!
# The grammar of the field header

A field header is accepted exactly when its bytes are the entries that the main
header announces, one after the other, and the entries may stand together in a
table. Otherwise there is a first entry that offends, or bytes are left behind
the last one. What an entry offends by is described part by part, in the order in
which its parts are judged, from the bytes in front of it and the names before
it; no reader occurs in the description.
-/
namespace LatticeSeries

theorem FieldTable.declare_eq_error_iff {t : FieldTable} {d : Declaration} {fault : HeaderFault} :
    t.declare d = .error fault ↔
      (d.name ∈ t.names ∧ fault = .duplicateName d.name) ∨
        (d.name ∉ t.names ∧ d.length = 0 ∧ fault = .noElements d.name) := by
  unfold FieldTable.declare
  split_ifs with htaken hvacant
  · simp [htaken, eq_comm]
  · simp [htaken, hvacant, eq_comm]
  · simp [htaken, hvacant]

/-- The type of the stored values of all declared fields, in the file and in memory. -/
def Version.valueType : Version → ElementType
  | .three => .f64
  | .four => .f32

namespace FieldEntry

variable {version : Version} {limits : Limits}

theorem declaration_eq (e : FieldEntry) (version : Version) :
    e.declaration version = ⟨e.name, e.length, version.valueType, version.valueType⟩ := by
  cases version <;> rfl

theorem map_name_declaration (es : List FieldEntry) (version : Version) :
    (es.map (·.declaration version)).map (·.name) = es.map (·.name) := by
  rw [List.map_map]
  exact List.map_congr_left fun e _ => e.name_declaration version

/-- What is wrong with the entry at a cursor, behind entries with these names.
Each fault of a part is a fault of an entry whose earlier parts are sound. -/
inductive Offends (version : Version) (limits : Limits) (names : List String)
    (c : Xdr.Cursor) : Error → Prop
  | name {fault : HeaderFault} {c' : Xdr.Cursor} :
      Xdr.TextFault "field name" c fault c' → Offends version limits names c (.corruptHeader fault)
  | count {name : String} {c' : Xdr.Cursor} :
      (Utf8.encode name).length < UInt32.size → c.Took (Xdr.encodeText name) c' →
      c'.remaining < 4 →
      Offends version limits names c
        (.corruptHeader (.outOfBytes "field length" c'.position 4 c'.remaining))
  | limit {name : String} {n : UInt32} {c' : Xdr.Cursor} :
      (Utf8.encode name).length < UInt32.size → c.Took (Xdr.encodeText name ++ bytesOfU32 n) c' →
      limits.fieldLength.toNat < n.toNat →
      Offends version limits names c
        (.limitExceeded "field length" n.toNat limits.fieldLength.toNat)
  | baseline {name : String} {n : UInt32} {c' : Xdr.Cursor} :
      version = .four →
      (Utf8.encode name).length < UInt32.size → c.Took (Xdr.encodeText name ++ bytesOfU32 n) c' →
      n.toNat ≤ limits.fieldLength.toNat → c'.remaining < 8 →
      Offends version limits names c
        (.corruptHeader (.outOfBytes "field offset" c'.position 8 c'.remaining))
  | duplicateName {e : FieldEntry} {c' : Xdr.Cursor} :
      e.Storable version → e.length.toNat ≤ limits.fieldLength.toNat → c.Took e.encode c' →
      e.name ∈ names →
      Offends version limits names c (.corruptHeader (.duplicateName e.name))
  | noElements {e : FieldEntry} {c' : Xdr.Cursor} :
      e.Storable version → e.length.toNat ≤ limits.fieldLength.toNat → c.Took e.encode c' →
      e.name ∉ names → e.length = 0 →
      Offends version limits names c (.corruptHeader (.noElements e.name))

/-- The parts of an entry fail in the order in which they are read. -/
theorem read_eq_error_iff {c c' : Xdr.Cursor} {e : Error} :
    read version limits c = .error e c' ↔
      (∃ fault, Xdr.TextFault "field name" c fault c' ∧ e = .corruptHeader fault) ∨
      ∃ name c₁, ((Utf8.encode name).length < UInt32.size ∧ c.Took (Xdr.encodeText name) c₁) ∧
        ((c' = c₁ ∧ c₁.remaining < 4 ∧
          e = .corruptHeader (.outOfBytes "field length" c₁.position 4 c₁.remaining)) ∨
        ∃ n c₂, c₁.Took (bytesOfU32 n) c₂ ∧ c' = c₂ ∧
          ((limits.fieldLength.toNat < n.toNat ∧
            e = .limitExceeded "field length" n.toNat limits.fieldLength.toNat) ∨
          (n.toNat ≤ limits.fieldLength.toNat ∧ version = .four ∧ c₂.remaining < 8 ∧
            e = .corruptHeader (.outOfBytes "field offset" c₂.position 8 c₂.remaining)))) := by
  unfold read
  simp only [Xdr.bind_eq_error_iff, Xdr.readText_eq_error_iff, Xdr.readText_eq_ok_iff,
    Xdr.readU32_eq_error_iff, Xdr.readU32_eq_ok_iff, Xdr.liftExcept_eq_error_iff,
    Xdr.liftExcept_eq_ok_iff, Limits.check_eq_error_iff, Limits.check_eq_ok_iff]
  refine or_congr Iff.rfl (exists_congr fun name => exists_congr fun c₁ => and_congr Iff.rfl
    (or_congr Iff.rfl (exists_congr fun n => exists_congr fun c₂ => and_congr Iff.rfl ?_)))
  constructor
  · intro h
    rcases h with ⟨⟨hexceeds, rfl⟩, rfl⟩ | ⟨-, c₃, ⟨hle, rfl⟩, h⟩
    · exact ⟨rfl, .inl ⟨hexceeds, rfl⟩⟩
    · cases version with
      | three => exact absurd h Xdr.pure_ne_error
      | four =>
        rcases Xdr.bind_eq_error_iff.mp h with h | ⟨_, _, -, h⟩
        · obtain ⟨rfl, hshort, rfl⟩ := Xdr.readDouble_eq_error_iff.mp h
          exact ⟨rfl, .inr ⟨hle, rfl, hshort, rfl⟩⟩
        · exact absurd h Xdr.pure_ne_error
  · intro h
    rcases h with ⟨rfl, ⟨hexceeds, rfl⟩ | ⟨hle, rfl, hshort, rfl⟩⟩
    · exact .inl ⟨⟨hexceeds, rfl⟩, rfl⟩
    · refine .inr ⟨(), c', ⟨hle, rfl⟩, ?_⟩
      exact Xdr.bind_eq_error_iff.mpr (.inl (Xdr.readDouble_eq_error_iff.mpr ⟨rfl, hshort, rfl⟩))

/-- An entry is refused by itself, or read and then refused by the table. -/
theorem offends_iff {t : FieldTable} {c : Xdr.Cursor} {e : Error} :
    Offends version limits t.names c e ↔
      (∃ c', read version limits c = .error e c') ∨
        ∃ entry c' fault, read version limits c = .ok entry c' ∧
          t.declare (entry.declaration version) = .error fault ∧ e = .corruptHeader fault := by
  simp only [read_eq_error_iff, read_eq_ok_iff, FieldTable.declare_eq_error_iff,
    name_declaration, length_declaration]
  constructor
  · intro h
    cases h with
    | name hfault => exact .inl ⟨_, .inl ⟨_, hfault, rfl⟩⟩
    | count hname htook hshort =>
      exact .inl ⟨_, .inr ⟨_, _, ⟨hname, htook⟩, .inl ⟨rfl, hshort, rfl⟩⟩⟩
    | limit hname htook hexceeds =>
      obtain ⟨c₁, htext, hcount⟩ := Xdr.Cursor.took_append_iff.mp htook
      exact .inl ⟨_, .inr ⟨_, c₁, ⟨hname, htext⟩, .inr ⟨_, _, hcount, rfl,
        .inl ⟨hexceeds, rfl⟩⟩⟩⟩
    | baseline hversion hname htook hle hshort =>
      obtain ⟨c₁, htext, hcount⟩ := Xdr.Cursor.took_append_iff.mp htook
      exact .inl ⟨_, .inr ⟨_, c₁, ⟨hname, htext⟩, .inr ⟨_, _, hcount, rfl,
        .inr ⟨hle, hversion, hshort, rfl⟩⟩⟩⟩
    | duplicateName hstorable hle htook hmem =>
      exact .inr ⟨_, _, _, ⟨hstorable, hle, htook⟩, .inl ⟨hmem, rfl⟩, rfl⟩
    | noElements hstorable hle htook hmem hzero =>
      exact .inr ⟨_, _, _, ⟨hstorable, hle, htook⟩, .inr ⟨hmem, hzero, rfl⟩, rfl⟩
  · intro h
    rcases h with ⟨c', h⟩ | ⟨entry, c', _, ⟨hstorable, hle, htook⟩, hfault, rfl⟩
    · rcases h with ⟨fault, hfault, rfl⟩ | ⟨name, c₁, ⟨hname, htext⟩, h⟩
      · exact .name hfault
      · rcases h with ⟨-, hshort, rfl⟩ | ⟨n, c₂, hcount, -, h⟩
        · exact .count hname htext hshort
        · rcases h with ⟨hexceeds, rfl⟩ | ⟨hle, hversion, hshort, rfl⟩
          · exact .limit hname (htext.append hcount) hexceeds
          · exact .baseline hversion hname (htext.append hcount) hle hshort
    · rcases hfault with ⟨hmem, rfl⟩ | ⟨hmem, hzero, rfl⟩
      · exact .duplicateName hstorable hle htook hmem
      · exact .noElements hstorable hle htook hmem hzero

/-- Reading entries fails at the first of them or behind it. -/
theorem readMany_succ_eq_error_iff {count : Nat} {t : FieldTable} {c : Xdr.Cursor} {e : Error} :
    (∃ c', readMany version limits (count + 1) t c = .error e c') ↔
      Offends version limits t.names c e ∨
        ∃ (entry : FieldEntry) (c₁ : Xdr.Cursor) (v : FieldTable),
          read version limits c = .ok entry c₁ ∧
          t.declare (entry.declaration version) = .ok v ∧
          ∃ c', readMany version limits count v c₁ = .error e c' := by
  rw [readMany, offends_iff]
  simp only [Xdr.bind_eq_error_iff, Xdr.liftExcept_eq_error_iff, Xdr.liftExcept_eq_ok_iff,
    mapError_eq_ok_iff]
  constructor
  · rintro ⟨c', h⟩
    rcases h with h | ⟨entry, c₁, hread, h⟩
    · exact .inl (.inl ⟨c', h⟩)
    rcases h with ⟨h, rfl⟩ | ⟨v, c₂, ⟨hdeclare, rfl⟩, h⟩
    · obtain ⟨fault, hfault, rfl⟩ := mapError_eq_error_iff.mp h
      exact .inl (.inr ⟨entry, c', fault, hread, hfault, rfl⟩)
    rcases h with h | ⟨_, _, -, h⟩
    · exact .inr ⟨entry, c₂, v, hread, hdeclare, c', h⟩
    · exact absurd h Xdr.pure_ne_error
  · intro h
    rcases h with (⟨c', h⟩ | ⟨entry, c₁, fault, hread, hfault, rfl⟩) |
      ⟨entry, c₁, v, hread, hdeclare, c', h⟩
    · exact ⟨c', .inl h⟩
    · exact ⟨c₁, .inr ⟨entry, c₁, hread,
        .inl ⟨mapError_eq_error_iff.mpr ⟨fault, hfault, rfl⟩, rfl⟩⟩⟩
    · exact ⟨c', .inr ⟨entry, c₁, hread, .inr ⟨v, c₁, ⟨hdeclare, rfl⟩, .inl h⟩⟩⟩

/-- The induction is on the number of entries that are still to be read. The
entries before the one that offends are in a table of their own, which carries
that they are sound. -/
theorem readMany_eq_error_iff {count : Nat} {t : FieldTable} {c : Xdr.Cursor} {e : Error} :
    (∃ c', readMany version limits count t c = .error e c') ↔
      ∃ (es : List FieldEntry) (c' : Xdr.Cursor) (u : FieldTable), es.length < count ∧
        (∀ entry ∈ es, entry.Storable version ∧
          entry.length.toNat ≤ limits.fieldLength.toNat) ∧
        u.declared = t.declared ++ es.map (·.declaration version) ∧
        c.Took (es.flatMap encode) c' ∧ Offends version limits u.names c' e := by
  induction count generalizing t c with
  | zero =>
    constructor
    · rintro ⟨c', h⟩
      exact absurd h Xdr.pure_ne_error
    · rintro ⟨es, c', u, hlt, -⟩
      exact absurd hlt (Nat.not_lt_zero _)
  | succ count ih =>
    rw [readMany_succ_eq_error_iff]
    constructor
    · intro h
      rcases h with hoffends | ⟨entry, c₁, v, hread, hdeclare, h⟩
      · exact ⟨[], c, t, Nat.succ_pos _, by simp, by simp, Xdr.Cursor.took_nil.mpr rfl, hoffends⟩
      · obtain ⟨es, c₂, u, hlt, hsound, hdeclared, htook, hoffends⟩ := ih.mp h
        obtain ⟨hstorable, hle, hentry⟩ := read_eq_ok_iff.mp hread
        rw [FieldTable.declare_eq_ok_iff.mp hdeclare, List.append_assoc] at hdeclared
        exact ⟨entry :: es, c₂, u, Nat.succ_lt_succ hlt,
          List.forall_mem_cons.mpr ⟨⟨hstorable, hle⟩, hsound⟩, hdeclared, hentry.append htook,
          hoffends⟩
    · rintro ⟨es, c', u, hlt, hsound, hdeclared, htook, hoffends⟩
      cases es with
      | nil =>
        obtain rfl : u = t := FieldTable.ext (by simpa using hdeclared)
        obtain rfl := Xdr.Cursor.took_nil.mp htook
        exact .inl hoffends
      | cons entry es =>
        obtain ⟨⟨hstorable, hle⟩, hsound⟩ := List.forall_mem_cons.mp hsound
        obtain ⟨c₁, hentry, hrest⟩ := Xdr.Cursor.took_append_iff.mp htook
        have hdeclared : u.declared = (t.declared ++ [entry.declaration version]) ++
            es.map (·.declaration version) := by
          rw [hdeclared, List.append_assoc]
          rfl
        obtain ⟨v, hv⟩ := FieldTable.exists_declared_eq hdeclared
        rw [← hv] at hdeclared
        exact .inr ⟨entry, c₁, v, read_eq_ok_iff.mpr ⟨hstorable, hle, hentry⟩,
          FieldTable.declare_eq_ok_iff.mpr hv,
          ih.mpr ⟨es, c', u, Nat.lt_of_succ_lt_succ hlt, hsound, hdeclared, hrest, hoffends⟩⟩

/-- Entries that may stand together in a table, in this order. -/
structure Compatible (version : Version) (limits : Limits) (es : List FieldEntry) : Prop where
  names_nodup : (reservedNames ++ es.map (·.name)).Nodup
  length_bounds : ∀ e ∈ es, 1 ≤ e.length.toNat ∧ e.length.toNat ≤ limits.fieldLength.toNat
  baseline : ∀ e ∈ es, e.baseline?.isSome ↔ version = .four

theorem names_of_declared {u : FieldTable} {es : List FieldEntry}
    (h : u.declared = es.map (·.declaration version)) :
    u.names = reservedNames ++ es.map (·.name) := by
  rw [FieldTable.names, h, map_name_declaration]

namespace Compatible

variable {es : List FieldEntry}

theorem exists_table (h : Compatible version limits es) :
    ∃ u : FieldTable, u.declared = es.map (·.declaration version) := by
  refine ⟨⟨es.map (·.declaration version), ?_, ?_⟩, rfl⟩
  · rw [map_name_declaration]
    exact h.names_nodup
  · intro d hd
    obtain ⟨e, he, rfl⟩ := List.mem_map.mp hd
    rw [length_declaration]
    intro hzero
    have hpos := (h.length_bounds e he).1
    rw [hzero] at hpos
    exact absurd hpos (by decide)

/-- A name is part of the bytes of its entry, so its length fits a word when theirs does. -/
theorem storable (h : Compatible version limits es)
    (hlt : (es.flatMap encode).length < UInt32.size) {e : FieldEntry} (he : e ∈ es) :
    e.Storable version :=
  ⟨Nat.lt_of_le_of_lt (length_name_le he) hlt, h.baseline e he⟩

end Compatible

theorem compatible_of_declared {u : FieldTable} {es : List FieldEntry}
    (hsound : ∀ e ∈ es, e.Storable version ∧ e.length.toNat ≤ limits.fieldLength.toNat)
    (hdeclared : u.declared = es.map (·.declaration version)) : Compatible version limits es where
  names_nodup := by
    rw [← names_of_declared hdeclared]
    exact u.names_nodup
  length_bounds := by
    intro e he
    have hne := u.length_ne_zero (e.declaration version)
      (by rw [hdeclared]; exact List.mem_map_of_mem he)
    rw [length_declaration, ne_eq, ← UInt32.toNat_inj] at hne
    exact ⟨Nat.pos_of_ne_zero hne, (hsound e he).2⟩
  baseline := fun e he => (hsound e he).1.baseline

end FieldEntry

namespace FieldHeader

open FieldEntry

variable {header : Header} {limits : Limits} {bytes : Bytes}

/-- The bytes behind a main header begin with a field header of these entries. -/
structure Written (header : Header) (limits : Limits) (bytes : Bytes)
    (es : List FieldEntry) : Prop where
  length_le : header.fieldHeaderLength.toNat ≤ bytes.length
  bytes_eq : bytes.take header.fieldHeaderLength.toNat = es.flatMap encode
  count : es.length = header.fieldCount.toNat
  compatible : Compatible header.version limits es

/-- Why the bytes behind a main header begin with no field header: they are too
few, or an entry offends behind others that do not, or bytes are left. -/
inductive Refused (header : Header) (limits : Limits) (bytes : Bytes) : Error → Prop
  | cut :
      bytes.length < header.fieldHeaderLength.toNat →
      Refused header limits bytes
        (.corruptHeader (.fieldHeaderCut header.fieldHeaderLength.toNat bytes.length))
  | entry {es : List FieldEntry} {c : Xdr.Cursor} {e : Error} :
      header.fieldHeaderLength.toNat ≤ bytes.length → es.length < header.fieldCount.toNat →
      Compatible header.version limits es →
      (Xdr.Cursor.start (bytes.take header.fieldHeaderLength.toNat)).Took (es.flatMap encode) c →
      Offends header.version limits (reservedNames ++ es.map (·.name)) c e →
      Refused header limits bytes e
  | excess {es : List FieldEntry} {c : Xdr.Cursor} :
      header.fieldHeaderLength.toNat ≤ bytes.length → es.length = header.fieldCount.toNat →
      Compatible header.version limits es →
      (Xdr.Cursor.start (bytes.take header.fieldHeaderLength.toNat)).Took (es.flatMap encode) c →
      c.remaining ≠ 0 →
      Refused header limits bytes
        (.corruptHeader (.fieldHeaderExcess header.fieldHeaderLength.toNat c.position))

/-- Entries that lie in a field header are shorter than a word counts. -/
theorem length_lt_of_took {es : List FieldEntry} {c : Xdr.Cursor}
    (h : (Xdr.Cursor.start (bytes.take header.fieldHeaderLength.toNat)).Took
      (es.flatMap encode) c) : (es.flatMap encode).length < UInt32.size := by
  have hle : (es.flatMap encode).length ≤ (bytes.take header.fieldHeaderLength.toNat).length :=
    (Xdr.Cursor.took_advance_iff.mp h).1
  rw [List.length_take] at hle
  have := header.fieldHeaderLength.toNat_lt
  simp only [UInt32.size]
  omega

theorem decode_eq_ok_iff_written {f : FieldHeader} :
    decode header limits bytes = .ok f ↔
      ∃ es, Written header limits bytes es ∧ f.MadeOf header.version es := by
  rw [decode_eq_ok_iff]
  constructor
  · rintro ⟨hle, es, hmade, hcount, hlimit, htake⟩
    refine ⟨es, ⟨hle, htake, hcount, ?_⟩, hmade⟩
    exact compatible_of_declared (fun e he => ⟨hmade.storable e he, hlimit e he⟩) hmade.declared
  · rintro ⟨es, h, hmade⟩
    exact ⟨h.length_le, es, hmade, h.count, fun e he => (h.compatible.length_bounds e he).2,
      h.bytes_eq⟩

theorem Written.exists_madeOf {es : List FieldEntry} (h : Written header limits bytes es) :
    ∃ f : FieldHeader, f.MadeOf header.version es := by
  obtain ⟨u, hu⟩ := h.compatible.exists_table
  have hlt : (es.flatMap encode).length < UInt32.size := by
    rw [← h.bytes_eq, List.length_take]
    exact Nat.lt_of_le_of_lt (Nat.min_le_left _ _) header.fieldHeaderLength.toNat_lt
  exact ⟨⟨u, .ofEntries header.version es⟩, fun e he => h.compatible.storable hlt he, hu, rfl⟩

/-- The entries that were read, in the terms of the grammar. -/
theorem readMany_eq_ok_iff_compatible {u : FieldTable} {es : List FieldEntry} {c : Xdr.Cursor}
    {count : Nat} :
    readMany header.version limits count .empty
        (.start (bytes.take header.fieldHeaderLength.toNat)) = .ok (u, es) c ↔
      es.length = count ∧ Compatible header.version limits es ∧
      u.declared = es.map (·.declaration header.version) ∧
      (Xdr.Cursor.start (bytes.take header.fieldHeaderLength.toNat)).Took
        (es.flatMap encode) c := by
  rw [readMany_eq_ok_iff]
  constructor
  · rintro ⟨hcount, hsound, hdeclared, htook⟩
    have hdeclared : u.declared = es.map (·.declaration header.version) := hdeclared
    exact ⟨hcount, compatible_of_declared hsound hdeclared, hdeclared, htook⟩
  · rintro ⟨hcount, hcompatible, hdeclared, htook⟩
    refine ⟨hcount, fun e he => ⟨?_, (hcompatible.length_bounds e he).2⟩, hdeclared, htook⟩
    exact hcompatible.storable (length_lt_of_took htook) he

theorem readMany_eq_error_iff_offends {e : Error} {count : Nat} :
    (∃ c, readMany header.version limits count .empty
        (.start (bytes.take header.fieldHeaderLength.toNat)) = .error e c) ↔
      ∃ es c, es.length < count ∧ Compatible header.version limits es ∧
        (Xdr.Cursor.start (bytes.take header.fieldHeaderLength.toNat)).Took (es.flatMap encode) c ∧
        Offends header.version limits (reservedNames ++ es.map (·.name)) c e := by
  rw [readMany_eq_error_iff]
  constructor
  · rintro ⟨es, c, u, hlt, hsound, hdeclared, htook, hoffends⟩
    have hdeclared : u.declared = es.map (·.declaration header.version) := hdeclared
    rw [names_of_declared hdeclared] at hoffends
    exact ⟨es, c, hlt, compatible_of_declared hsound hdeclared, htook, hoffends⟩
  · rintro ⟨es, c, hlt, hcompatible, htook, hoffends⟩
    obtain ⟨u, hu⟩ := hcompatible.exists_table
    rw [← names_of_declared hu] at hoffends
    refine ⟨es, c, u, hlt, fun e he => ⟨?_, (hcompatible.length_bounds e he).2⟩, hu, htook,
      hoffends⟩
    exact hcompatible.storable (length_lt_of_took htook) he

theorem decode_eq_error_iff {e : Error} :
    decode header limits bytes = .error e ↔ Refused header limits bytes e := by
  unfold decode
  dsimp only
  constructor
  · intro h
    split at h
    · rename_i hshort
      cases h
      exact .cut hshort
    · rename_i hlong
      have hlong := Nat.le_of_not_lt hlong
      split at h
      · rename_i fault c hread
        cases h
        obtain ⟨es, c, hlt, hcompatible, htook, hoffends⟩ :=
          readMany_eq_error_iff_offends.mp ⟨c, hread⟩
        exact .entry hlong hlt hcompatible htook hoffends
      · rename_i u es c hread
        split_ifs at h with hrest
        cases h
        obtain ⟨hcount, hcompatible, -, htook⟩ := readMany_eq_ok_iff_compatible.mp hread
        exact .excess hlong hcount hcompatible htook hrest
  · intro h
    cases h with
    | cut hshort => rw [if_pos hshort]
    | entry hlong hlt hcompatible htook hoffends =>
      obtain ⟨c, hread⟩ := readMany_eq_error_iff_offends.mpr
        ⟨_, _, hlt, hcompatible, htook, hoffends⟩
      rw [if_neg (Nat.not_lt.mpr hlong), hread]
    | excess hlong hcount hcompatible htook hrest =>
      obtain ⟨u, hu⟩ := hcompatible.exists_table
      have hread := readMany_eq_ok_iff_compatible.mpr ⟨hcount, hcompatible, hu, htook⟩
      rw [if_neg (Nat.not_lt.mpr hlong), hread]
      exact if_neg hrest

/-- A refusal is a fault of the header or a field length above its limit. -/
theorem Refused.cause {e : Error} (h : Refused header limits bytes e) :
    (∃ fault, e = .corruptHeader fault) ∨
      ∃ value, e = .limitExceeded "field length" value limits.fieldLength.toNat := by
  cases h with
  | cut _ => exact .inl ⟨_, rfl⟩
  | excess _ _ _ _ _ => exact .inl ⟨_, rfl⟩
  | entry _ _ _ _ hoffends =>
    cases hoffends with
    | limit _ _ _ => exact .inr ⟨_, rfl⟩
    | _ => exact .inl ⟨_, rfl⟩

namespace MadeOf

variable {f : FieldHeader} {version : Version} {es : List FieldEntry}

/-- Each field is declared as its entry says, in the type of the version. -/
theorem getElem?_declared (h : f.MadeOf version es) {index : Nat} {e : FieldEntry}
    (he : es[index]? = some e) :
    f.table.declared[index]? = some ⟨e.name, e.length, version.valueType, version.valueType⟩ := by
  rw [h.declared, List.getElem?_map, he, ← e.declaration_eq version]
  rfl

theorem coding_three (h : f.MadeOf .three es) : f.coding = .absolute := h.coding

/-- The zero of the leading fields comes first, then one baseline for each entry. -/
theorem coding_four (h : f.MadeOf .four es) :
    ∃ baselines, f.coding = .relative (.zero :: baselines) ∧ baselines.length = es.length ∧
      baselines.map some = es.map (·.baseline?) := by
  have hmap := map_some_baselines fun e he => (h.storable e he).baseline.mpr rfl
  refine ⟨_, h.coding, ?_, hmap⟩
  have hlength := congrArg List.length hmap
  rwa [List.length_map, List.length_map] at hlength

end MadeOf

/-- The field header declares what its entries say, in their order, and keeps the
baseline of each entry for its field. -/
structure Declares (f : FieldHeader) (header : Header) (es : List FieldEntry) : Prop where
  length_declared : f.table.declared.length = header.fieldCount.toNat
  declared : ∀ (index : Nat) e, es[index]? = some e → f.table.declared[index]? =
    some ⟨e.name, e.length, header.version.valueType, header.version.valueType⟩
  baseline : ∀ (index : Nat) e, es[index]? = some e → f.coding.baseline? index = e.baseline?
  absolute : header.version = .three → f.coding = .absolute
  relative : header.version = .four → ∃ baselines, f.coding = .relative (.zero :: baselines) ∧
    baselines.length = header.fieldCount.toNat ∧ baselines.map some = es.map (·.baseline?)

theorem Written.declares {f : FieldHeader} {es : List FieldEntry}
    (h : Written header limits bytes es) (hmade : f.MadeOf header.version es) :
    f.Declares header es where
  length_declared := by rw [hmade.declared, List.length_map, h.count]
  declared := fun _ _ he => hmade.getElem?_declared he
  baseline := by
    intro index e he
    rw [hmade.coding, ValueCoding.baseline?_ofEntries hmade.storable, he]
    rfl
  absolute := by
    intro hversion
    rw [hversion] at hmade
    exact hmade.coding_three
  relative := by
    intro hversion
    rw [hversion] at hmade
    rw [← h.count]
    exact hmade.coding_four

/-- What decoding the bytes behind a main header comes to: a field header that declares
what is written, or the first thing that is wrong, which is a fault of the header or a
field length above the limit. -/
structure Verdict (header : Header) (limits : Limits) (bytes : Bytes) : Prop where
  ok_iff : (∃ f, decode header limits bytes = .ok f) ↔ ∃ es, Written header limits bytes es
  declares : ∀ es, Written header limits bytes es →
    ∃ f, decode header limits bytes = .ok f ∧ f.Declares header es
  error_iff : ∀ e, decode header limits bytes = .error e ↔ Refused header limits bytes e
  cause : ∀ e, decode header limits bytes = .error e →
    (∃ fault, e = .corruptHeader fault) ∨
      ∃ value, e = .limitExceeded "field length" value limits.fieldLength.toNat

/-- A field header is accepted exactly when it is written as the grammar says. -/
theorem decode_grammar (header : Header) (limits : Limits) (bytes : Bytes) :
    Verdict header limits bytes where
  ok_iff := by
    constructor
    · rintro ⟨f, hf⟩
      obtain ⟨es, hwritten, -⟩ := decode_eq_ok_iff_written.mp hf
      exact ⟨es, hwritten⟩
    · rintro ⟨es, hwritten⟩
      obtain ⟨f, hmade⟩ := hwritten.exists_madeOf
      exact ⟨f, decode_eq_ok_iff_written.mpr ⟨es, hwritten, hmade⟩⟩
  declares := by
    intro es hwritten
    obtain ⟨f, hmade⟩ := hwritten.exists_madeOf
    exact ⟨f, decode_eq_ok_iff_written.mpr ⟨es, hwritten, hmade⟩, hwritten.declares hmade⟩
  error_iff := fun _ => decode_eq_error_iff
  cause := fun _ he => (decode_eq_error_iff.mp he).cause

/-- A header of the fourth version with so many entries in so many bytes. -/
def announcing (count length : UInt32) : Header where
  applicationMagic := Magic.application
  extractionMagic := Magic.extraction
  version := .four
  voxelSize := .zero
  origin := ⟨.zero, .zero, .zero⟩
  siteCount := 0
  fieldCount := count
  fieldHeaderLength := length

theorem decode_grammar_sample :
    let shear : FieldEntry := ⟨"shear", 3, some (.ofNat 1000)⟩
    let grid : FieldEntry := ⟨"grid", 1, some .zero⟩
    (∃ f, decode (announcing 1 24) {} shear.encode = .ok f ∧
      f.coding.baseline? 0 = some (.ofNat 1000)) ∧
    decode (announcing 2 44) {} (shear.encode ++ grid.encode) =
      .error (.corruptHeader (.duplicateName "grid")) := by
  intro shear grid
  constructor
  · have hverdict := decode_grammar (announcing 1 24) {} shear.encode
    obtain ⟨f, hf, hdeclares⟩ := hverdict.declares [shear]
      ⟨by decide +kernel, by decide +kernel, rfl, by decide, by decide, by decide⟩
    exact ⟨f, hf, hdeclares.baseline 0 shear rfl⟩
  · have hverdict := decode_grammar (announcing 2 44) {} (shear.encode ++ grid.encode)
    have hshear : Compatible .four {} [shear] := ⟨by decide, by decide, by decide⟩
    have hleads : (Xdr.Cursor.start ((shear.encode ++ grid.encode).take 44)).Took
        ([shear].flatMap encode) ⟨24, grid.encode⟩ := ⟨by decide +kernel, by decide +kernel⟩
    have htook : Xdr.Cursor.Took ⟨24, grid.encode⟩ grid.encode ⟨44, []⟩ :=
      ⟨by decide +kernel, by decide +kernel⟩
    have hgrid : Offends .four {} (reservedNames ++ [shear].map (·.name)) ⟨24, grid.encode⟩
        (.corruptHeader (.duplicateName grid.name)) :=
      .duplicateName ⟨by decide +kernel, by decide⟩ (by decide) htook (by decide)
    exact (hverdict.error_iff _).mpr
      (.entry (by decide +kernel) (by decide) hshear hleads hgrid)

end FieldHeader

end LatticeSeries
