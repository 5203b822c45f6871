import LatticeSeries.FieldHeader
import LatticeSeries.Proofs.Stages
import LatticeSeries.Proofs.XdrCodec
import Mathlib.Tactic.SplitIfs

/-!
# The field header as a codec

The field header is accepted exactly when it is the concatenation of as many
entry encodings as the main header announces, and the table of an accepted one
declares what the entries say, in their order. The table carries the distinct
names and the nonzero lengths, so no other condition on them appears here.
-/
namespace LatticeSeries

theorem FieldTable.declare_eq_ok_iff {t u : FieldTable} {d : Declaration} :
    t.declare d = .ok u ↔ u.declared = t.declared ++ [d] := by
  unfold FieldTable.declare
  constructor
  · intro h
    split_ifs at h
    cases h
    rfl
  · intro h
    have hnames := u.names_nodup
    rw [h, List.map_append, ← List.append_assoc] at hnames
    have hfresh : d.name ∉ t.names := fun hmem =>
      (List.nodup_append.mp hnames).2.2 d.name hmem d.name (by simp) rfl
    have hlength : d.length ≠ 0 := u.length_ne_zero d (by rw [h]; simp)
    rw [dif_neg hfresh, dif_neg hlength]
    congr 1
    exact FieldTable.ext h.symm

/-- The fields that a table declares first are declared by a table of their own. -/
theorem FieldTable.exists_declared_eq {u : FieldTable} {ds es : List Declaration}
    (h : u.declared = ds ++ es) : ∃ t : FieldTable, t.declared = ds := by
  refine ⟨⟨ds, ?_, ?_⟩, rfl⟩
  · have hnames := u.names_nodup
    rw [h, List.map_append, ← List.append_assoc] at hnames
    exact (List.nodup_append.mp hnames).1
  · intro d hd
    exact u.length_ne_zero d (by rw [h]; exact List.mem_append_left es hd)

namespace FieldEntry

/-- What an entry needs to have a stored form in a version: the length of its
name fits a word, and it has a baseline exactly in version four. -/
structure Storable (version : Version) (e : FieldEntry) : Prop where
  name_lt : (Utf8.encode e.name).length < UInt32.size
  baseline : e.baseline?.isSome ↔ version = .four

theorem eight_le_length_encode (e : FieldEntry) : 8 ≤ e.encode.length := by
  have := Xdr.four_le_length_encodeText e.name
  simp only [encode, List.length_append, length_bytesOfU32]
  omega

theorem eight_mul_length_le (es : List FieldEntry) :
    8 * es.length ≤ (es.flatMap encode).length := by
  induction es with
  | nil => simp
  | cons e es ih =>
    have he := e.eight_le_length_encode
    rw [List.flatMap_cons, List.length_append, List.length_cons]
    omega

theorem length_name_le {e : FieldEntry} {es : List FieldEntry} (he : e ∈ es) :
    (Utf8.encode e.name).length ≤ (es.flatMap encode).length := by
  have hname : (Utf8.encode e.name).length ≤ e.encode.length := by
    simp only [encode, Xdr.encodeText, List.length_append]
    omega
  have hentry : e.encode.Sublist (es.map encode).flatten :=
    List.sublist_flatten_of_mem (List.mem_map_of_mem he)
  rw [List.flatMap_def]
  exact Nat.le_trans hname hentry.length_le

theorem read_eq_ok_iff {version : Version} {limits : Limits} {e : FieldEntry}
    {c c' : Xdr.Cursor} :
    read version limits c = .ok e c' ↔
      e.Storable version ∧ e.length.toNat ≤ limits.fieldLength.toNat ∧ c.Took e.encode c' := by
  unfold read
  simp only [Xdr.bind_eq_ok_iff, Xdr.readText_eq_ok_iff, Xdr.readU32_eq_ok_iff,
    Xdr.liftExcept_eq_ok_iff, Limits.check_eq_ok_iff]
  constructor
  · intro h
    rcases h with ⟨name, c₁, ⟨hname, h₁⟩, length, c₂, h₂, u, c₃, ⟨hlimit, rfl⟩, h⟩
    cases version with
    | three =>
      obtain ⟨rfl, rfl⟩ := Xdr.pure_eq_ok_iff.mp h
      refine ⟨⟨hname, by simp⟩, hlimit, ?_⟩
      simpa [encode] using h₁.append h₂
    | four =>
      obtain ⟨baseline, c₄, h₄, h⟩ := Xdr.bind_eq_ok_iff.mp h
      obtain ⟨rfl, rfl⟩ := Xdr.pure_eq_ok_iff.mp h
      rw [Xdr.readDouble_eq_ok_iff] at h₄
      refine ⟨⟨hname, by simp⟩, hlimit, ?_⟩
      simpa [encode] using (h₁.append h₂).append h₄
  · intro h
    rcases h with ⟨⟨hname, hbaseline⟩, hlimit, h⟩
    rcases e with ⟨name, length, baseline?⟩
    rw [encode, Xdr.Cursor.took_append_iff] at h
    rcases h with ⟨c₂, h, h₄⟩
    obtain ⟨c₁, h₁, h₂⟩ := Xdr.Cursor.took_append_iff.mp h
    refine ⟨name, c₁, ⟨hname, h₁⟩, length, c₂, h₂, (), c₂, ⟨hlimit, rfl⟩, ?_⟩
    cases version with
    | three =>
      cases baseline? with
      | none =>
        rw [Xdr.Cursor.took_nil.mp h₄]
        exact Xdr.pure_eq_ok_iff.mpr ⟨rfl, rfl⟩
      | some _ => simp at hbaseline
    | four =>
      cases baseline? with
      | none => simp at hbaseline
      | some baseline =>
        exact Xdr.bind_eq_ok_iff.mpr ⟨baseline, c', Xdr.readDouble_eq_ok_iff.mpr h₄,
          Xdr.pure_eq_ok_iff.mpr ⟨rfl, rfl⟩⟩

/-- The induction is on the number of entries; a table that declares them all is
reached through the tables that declare a first part of them. -/
theorem readMany_eq_ok_iff {version : Version} {limits : Limits} {count : Nat}
    {t u : FieldTable} {entries : List FieldEntry} {c c' : Xdr.Cursor} :
    readMany version limits count t c = .ok (u, entries) c' ↔
      entries.length = count ∧
      (∀ e ∈ entries, e.Storable version ∧ e.length.toNat ≤ limits.fieldLength.toNat) ∧
      u.declared = t.declared ++ entries.map (·.declaration version) ∧
      c.Took (entries.flatMap encode) c' := by
  induction count generalizing t entries c with
  | zero =>
    rw [readMany, Xdr.pure_eq_ok_iff]
    constructor
    · intro h
      rcases h with ⟨h, rfl⟩
      obtain ⟨rfl, rfl⟩ := Prod.mk.inj h
      exact ⟨rfl, by simp, by simp, Xdr.Cursor.took_nil.mpr rfl⟩
    · intro h
      rcases h with ⟨hcount, -, hdeclared, htook⟩
      obtain rfl := List.length_eq_zero_iff.mp hcount
      exact ⟨Prod.ext (FieldTable.ext (by simpa using hdeclared)) rfl,
        Xdr.Cursor.took_nil.mp htook⟩
  | succ count ih =>
    rw [readMany]
    simp only [Xdr.bind_eq_ok_iff, Xdr.liftExcept_eq_ok_iff, read_eq_ok_iff,
      mapError_eq_ok_iff, FieldTable.declare_eq_ok_iff]
    constructor
    · intro h
      rcases h with ⟨e, c₁, ⟨hstorable, hlimit, h₁⟩, v, c₂, ⟨hv, rfl⟩, ⟨w, es⟩, c₃, hrest, h⟩
      obtain ⟨hpair, rfl⟩ := Xdr.pure_eq_ok_iff.mp h
      obtain ⟨rfl, rfl⟩ := Prod.mk.inj hpair
      obtain ⟨hcount, hall, hdeclared, htook⟩ := ih.mp hrest
      refine ⟨by rw [List.length_cons, hcount], ?_, ?_, h₁.append htook⟩
      · exact List.forall_mem_cons.mpr ⟨⟨hstorable, hlimit⟩, hall⟩
      · rw [hdeclared, hv, List.append_assoc]
        rfl
    · intro h
      rcases h with ⟨hcount, hall, hdeclared, htook⟩
      cases entries with
      | nil => simp at hcount
      | cons e es =>
        obtain ⟨⟨hstorable, hlimit⟩, hall⟩ := List.forall_mem_cons.mp hall
        obtain ⟨c₁, h₁, hrest⟩ := Xdr.Cursor.took_append_iff.mp htook
        have hdeclared : u.declared =
            (t.declared ++ [e.declaration version]) ++ es.map (·.declaration version) := by
          rw [hdeclared, List.append_assoc]
          rfl
        obtain ⟨v, hv⟩ := FieldTable.exists_declared_eq hdeclared
        refine ⟨e, c₁, ⟨hstorable, hlimit, h₁⟩, v, c₁, ⟨hv, rfl⟩, (u, es), c', ?_,
          Xdr.pure_eq_ok_iff.mpr ⟨rfl, rfl⟩⟩
        exact ih.mpr ⟨Nat.succ.inj hcount, hall, by rw [hdeclared, hv], hrest⟩

@[simp] theorem name_declaration (e : FieldEntry) (version : Version) :
    (e.declaration version).name = e.name := by
  cases version <;> rfl

@[simp] theorem length_declaration (e : FieldEntry) (version : Version) :
    (e.declaration version).length = e.length := by
  cases version <;> rfl

end FieldEntry

/-- The coding keeps the baseline of every entry at the index of its field. -/
theorem ValueCoding.baseline?_ofEntries {version : Version} {entries : List FieldEntry}
    (h : ∀ e ∈ entries, e.Storable version) (index : Nat) :
    (ofEntries version entries).baseline? index = entries[index]?.bind (·.baseline?) := by
  cases version with
  | three =>
    cases he : entries[index]? with
    | none => rfl
    | some e =>
      have hnone : e.baseline? = none := by
        simpa using (h e (List.mem_of_getElem? he)).baseline
      exact hnone.symm
  | four =>
    change (entries.filterMap (·.baseline?))[index]? = _
    induction entries generalizing index with
    | nil => rfl
    | cons e es ih =>
      obtain ⟨hfirst, hrest⟩ := List.forall_mem_cons.mp h
      obtain ⟨baseline, hb⟩ := Option.isSome_iff_exists.mp (hfirst.baseline.mpr rfl)
      rw [List.filterMap_cons_some hb]
      cases index with
      | zero => simpa using hb.symm
      | succ index => simpa using ih index hrest

theorem FieldEntry.map_some_baselines {entries : List FieldEntry}
    (h : ∀ e ∈ entries, e.baseline?.isSome) :
    (entries.filterMap (·.baseline?)).map some = entries.map (·.baseline?) := by
  induction entries with
  | nil => rfl
  | cons e es ih =>
    obtain ⟨hfirst, hrest⟩ := List.forall_mem_cons.mp h
    obtain ⟨baseline, hb⟩ := Option.isSome_iff_exists.mp hfirst
    rw [List.filterMap_cons_some hb, List.map_cons, List.map_cons, ih hrest, hb]

namespace FieldHeader

/-- The field header is the one that these entries make. -/
structure MadeOf (f : FieldHeader) (version : Version) (entries : List FieldEntry) : Prop where
  storable : ∀ e ∈ entries, e.Storable version
  declared : f.table.declared = entries.map (·.declaration version)
  coding : f.coding = .ofEntries version entries

theorem MadeOf.entries_eq {f : FieldHeader} {version : Version} {es : List FieldEntry}
    (h : f.MadeOf version es) : f.entries = es := by
  apply List.ext_getElem?
  intro index
  rw [entries, h.declared, h.coding, List.getElem?_map, List.getElem?_zipIdx, List.getElem?_map,
    Nat.zero_add]
  cases he : es[index]? with
  | none => rfl
  | some e =>
    have hb := ValueCoding.baseline?_ofEntries h.storable index
    rw [he] at hb
    simp [hb]

theorem decode_eq_ok_iff {header : Header} {limits : Limits} {bytes : Bytes} {f : FieldHeader} :
    decode header limits bytes = .ok f ↔
      header.fieldHeaderLength.toNat ≤ bytes.length ∧
      ∃ es, f.MadeOf header.version es ∧ es.length = header.fieldCount.toNat ∧
        (∀ e ∈ es, e.length.toNat ≤ limits.fieldLength.toNat) ∧
        bytes.take header.fieldHeaderLength.toNat = es.flatMap FieldEntry.encode := by
  unfold decode
  dsimp only
  constructor
  · intro h
    split at h
    · cases h
    · rename_i hlen
      refine ⟨Nat.le_of_not_lt hlen, ?_⟩
      split at h
      · cases h
      · rename_i table es cursor hread
        split_ifs at h with hrest
        cases h
        obtain ⟨hcount, hall, hdeclared, htook⟩ := FieldEntry.readMany_eq_ok_iff.mp hread
        have hnil : cursor.rest = [] := List.length_eq_zero_iff.mp hrest
        refine ⟨es, ⟨fun e he => (hall e he).1, hdeclared, rfl⟩, hcount,
          fun e he => (hall e he).2, ?_⟩
        have hbytes := htook.1
        rwa [hnil, List.append_nil] at hbytes
  · intro h
    rcases h with ⟨hlen, es, hmade, hcount, hlimit, htake⟩
    have hread : FieldEntry.readMany header.version limits header.fieldCount.toNat .empty
        (.start (bytes.take header.fieldHeaderLength.toNat)) =
          .ok (f.table, es) ⟨(es.flatMap FieldEntry.encode).length, []⟩ := by
      refine FieldEntry.readMany_eq_ok_iff.mpr ⟨hcount, fun e he => ⟨hmade.storable e he,
        hlimit e he⟩, hmade.declared, ?_, ?_⟩
      · simp [Xdr.Cursor.start, htake]
      · simp [Xdr.Cursor.start]
    rw [if_neg (Nat.not_lt.mpr hlen), hread]
    simp only [Xdr.Cursor.remaining, List.length_nil, if_true, ← hmade.coding]

end FieldHeader

end LatticeSeries
