import LatticeSeries.Proofs.CheckedBlock
import LatticeSeries.Proofs.NameIndex

/-!
# Layouts without gaps

Entries that follow each other without a gap divide the bytes from the first to
the last among themselves. The offsets in a row are taken from the row length at
the time of each append, those of a decoded site from a running sum; both place
the entries one behind the other, so both layouts divide their records.
-/
namespace LatticeSeries

-- Sums of sizes are those of core.
attribute [local instance (2000)] Zero.ofOfNat0

namespace Layout

/-- The entry holds the byte. -/
def Holds (e : LayoutEntry) (b : Nat) : Prop := e.offset ≤ b ∧ b < e.limit

/-- No entry reaches past the record, and each byte of the record lies in exactly one entry. -/
structure Partitioned (l : Layout) : Prop where
  limit_le : ∀ e ∈ l.entries, e.limit ≤ l.recordSize
  existsUnique : ∀ b < l.recordSize, ∃! i : Nat, ∃ e, l.entries[i]? = some e ∧ Holds e b

/-- Each entry begins where the one before it ends. -/
def Consecutive (start : Nat) : List LayoutEntry → (stop : Nat) → Prop
  | [], stop => start = stop
  | e :: es, stop => e.offset = start ∧ Consecutive (start + e.size) es stop

namespace Consecutive

variable {start stop : Nat} {es : List LayoutEntry}

theorem bounds (h : Consecutive start es stop) :
    start ≤ stop ∧ ∀ e ∈ es, start ≤ e.offset ∧ e.limit ≤ stop := by
  induction es generalizing start with
  | nil => exact ⟨Nat.le_of_eq h, by simp⟩
  | cons e es ih =>
    obtain ⟨rfl, hrest⟩ := h
    obtain ⟨hstop, hes⟩ := ih hrest
    refine ⟨by omega, List.forall_mem_cons.mpr ⟨⟨Nat.le_refl _, hstop⟩, ?_⟩⟩
    intro f hf
    obtain ⟨hoffset, hlimit⟩ := hes f hf
    exact ⟨by omega, hlimit⟩

theorem existsUnique (h : Consecutive start es stop) {b : Nat} (hstart : start ≤ b)
    (hstop : b < stop) : ∃! i : Nat, ∃ e, es[i]? = some e ∧ Holds e b := by
  induction es generalizing start with
  | nil =>
    obtain rfl : start = stop := h
    omega
  | cons e es ih =>
    obtain ⟨rfl, hrest⟩ := h
    by_cases hb : b < e.limit
    · -- The bytes of the entries behind the first all come later.
      refine ⟨0, ⟨e, rfl, hstart, hb⟩, ?_⟩
      rintro (_ | i) ⟨f, hf, hholds⟩
      · rfl
      · have hlater : e.limit ≤ f.offset := (hrest.bounds.2 f (List.mem_of_getElem? hf)).1
        have hbyte : f.offset ≤ b := hholds.1
        omega
    · obtain ⟨i, hi, hunique⟩ := ih hrest (Nat.le_of_not_lt hb)
      refine ⟨i + 1, hi, ?_⟩
      rintro (_ | j) ⟨f, hf, hholds⟩
      · cases hf
        exact absurd hholds.2 hb
      · exact congrArg Nat.succ (hunique j ⟨f, hf, hholds⟩)

end Consecutive

theorem Partitioned.of_consecutive {l : Layout} (h : Consecutive 0 l.entries l.recordSize) :
    l.Partitioned where
  limit_le e he := (h.bounds.2 e he).2
  existsUnique _ hb := h.existsUnique (Nat.zero_le _) hb

end Layout

namespace Registry

/-- The entry of a stored field, at the offset that the field records. -/
def DiskEntry (f : Field) (e : LayoutEntry) : Prop :=
  e.name = f.name ∧ e.length = f.length ∧ f.storage = .stored e.type e.offset

def MemoryEntry (f : Field) (e : LayoutEntry) : Prop :=
  e.name = f.name ∧ e.length = f.length ∧ e.type = f.memoryType

theorem forall₂_pack (offset : Nat) (fs : List Field) :
    List.Forall₂ MemoryEntry fs (pack offset fs).entries := by
  induction fs generalizing offset with
  | nil => exact .nil
  | cons f fs ih => exact .cons ⟨rfl, rfl, rfl⟩ (ih _)

theorem consecutive_pack (offset : Nat) (fs : List Field) :
    Layout.Consecutive offset (pack offset fs).entries (pack offset fs).recordSize := by
  induction fs generalizing offset with
  | nil => rfl
  | cons f fs ih => exact ⟨rfl, ih _⟩

theorem pack_eq (offset : Nat) (fs : List Field) :
    pack offset fs =
      ⟨FieldTable.packFrom offset fs, offset + (fs.map Field.memorySize).sum⟩ := by
  induction fs generalizing offset with
  | nil => rfl
  | cons f fs ih =>
    rw [pack, ih, FieldTable.packFrom, List.map_cons, List.sum_cons, Nat.add_assoc]

/-- Further fields do not move those before them. -/
theorem entries_pack_prefix (offset : Nat) (fs gs : List Field) :
    (pack offset fs).entries <+: (pack offset (fs ++ gs)).entries := by
  induction fs generalizing offset with
  | nil => exact List.nil_prefix
  | cons f fs ih => exact List.cons_prefix_cons.mpr ⟨rfl, ih _⟩

end Registry

theorem Checked.pack_eq_ok {offset : Nat} {fs : List Field}
    (h : (Registry.pack offset fs).recordSize < UInt64.size) :
    pack offset fs = .ok (Registry.pack offset fs) := by
  induction fs generalizing offset with
  | nil => rfl
  | cons f fs ih =>
    have hrest : (Registry.pack (offset + f.memorySize) fs).recordSize < UInt64.size := h
    have hstop : offset + f.memorySize ≤ (Registry.pack (offset + f.memorySize) fs).recordSize :=
      (Registry.consecutive_pack _ fs).bounds.1
    have hsize : mul f.memoryType.size f.length.toNat = .ok f.memorySize :=
      mul_eq_ok (show f.memorySize < UInt64.size by omega)
    have hnext : add offset f.memorySize = .ok (offset + f.memorySize) := add_eq_ok (by omega)
    rw [pack, hsize, ok_bind, hnext, ok_bind, ih hrest]
    rfl

namespace Registry

/-- The entry of a declaration that has a place. -/
def placedEntry (p : Declaration × Nat) : LayoutEntry := ⟨p.1.name, p.1.diskType, p.1.length, p.2⟩

theorem consecutive_place (start : Nat) (ds : List Declaration) :
    Layout.Consecutive start ((Declaration.place start ds).map placedEntry)
      (start + (ds.map Declaration.diskSize).sum) := by
  induction ds generalizing start with
  | nil => rfl
  | cons d ds ih =>
    rw [Declaration.place_cons, List.map_cons, List.map_cons, List.sum_cons, ← Nat.add_assoc]
    exact ⟨rfl, ih _⟩

theorem filterMap_entryOnDisk?_stored (t : FieldTable) :
    t.stored.filterMap entryOnDisk? = ⟨"grid", .u32, 3, 0⟩ :: t.placed.map placedEntry := by
  have hplaced : (t.placed.map fun p => p.1.placeAt p.2).filterMap entryOnDisk? =
      t.placed.map placedEntry := by
    have hentry : (entryOnDisk? ∘ fun p => p.1.placeAt p.2) = some ∘ placedEntry := rfl
    rw [List.filterMap_map, hentry, List.filterMap_eq_map]
  exact congrArg (_ :: ·) hplaced

namespace Represents

variable {r : Registry} {t : FieldTable}

theorem entries_diskLayout (h : r.Represents t) :
    r.diskLayout.entries = ⟨"grid", .u32, 3, 0⟩ :: t.placed.map placedEntry := by
  rw [diskLayout, h.stored_eq, filterMap_entryOnDisk?_stored]

theorem forall₂_diskLayout (h : r.Represents t) :
    List.Forall₂ DiskEntry r.stored r.diskLayout.entries := by
  rw [h.entries_diskLayout, h.stored_eq]
  refine .cons ⟨rfl, rfl, rfl⟩ ?_
  rw [List.forall₂_map_left_iff, List.forall₂_map_right_iff, List.forall₂_same]
  exact fun _ _ => ⟨rfl, rfl, rfl⟩

/-- The offset that an append takes from the row length is where the row ended before. -/
theorem consecutive_diskLayout (h : r.Represents t) :
    Layout.Consecutive 0 r.diskLayout.entries r.rowLength := by
  rw [h.entries_diskLayout, h.rowLength_eq, t.rowLength_eq]
  exact ⟨rfl, consecutive_place _ _⟩

theorem diskLayout_eq (h : r.Represents t) : r.diskLayout = t.diskLayout := by
  have hentries : r.stored.filterMap entryOnDisk? = t.diskLayout.entries := by
    rw [h.stored_eq]
    unfold FieldTable.diskLayout
    dsimp only
    apply List.filterMap_congr
    intro f _
    unfold entryOnDisk? Field.diskType? Field.offset?
    cases f.storage <;> rfl
  exact congr (congrArg Layout.mk hentries) h.rowLength_eq

theorem memoryLayout_eq (h : r.Represents t) : r.memoryLayout = t.memoryLayout := by
  rw [memoryLayout, pack_eq, h.fields_eq, Nat.zero_add]
  rfl

end Represents

/-- Both layouts of a table divide their records, as a registry represents the table. -/
theorem partitioned_layouts (t : FieldTable) :
    t.diskLayout.Partitioned ∧ t.memoryLayout.Partitioned := by
  have h : (after t.declared).Represents t := represents_after_declared t
  rw [← h.diskLayout_eq, ← h.memoryLayout_eq]
  exact ⟨.of_consecutive h.consecutive_diskLayout, .of_consecutive (consecutive_pack 0 _)⟩

theorem attempt_eq (r : Registry) (d : Declaration) :
    r.attempt d = r ∨
      (r.attempt d).computed = r.computed ∧
        (r.attempt d).stored = r.stored ++ [d.placeAt r.rowLength] := by
  rw [attempt, append_eq]
  split_ifs
  · exact .inl rfl
  · exact .inl rfl
  · exact .inr ⟨rfl, rfl⟩

/-- Appends only put stored fields behind the others. -/
theorem exists_attempts_eq (r : Registry) (ds : List Declaration) :
    (r.attempts ds).computed = r.computed ∧ ∃ fs, (r.attempts ds).stored = r.stored ++ fs := by
  induction ds generalizing r with
  | nil => exact ⟨rfl, [], (List.append_nil _).symm⟩
  | cons d ds ih =>
    obtain ⟨hcomputed, fs, hstored⟩ := ih (r.attempt d)
    have hstep : r.attempts (d :: ds) = (r.attempt d).attempts ds := rfl
    rcases r.attempt_eq d with hsame | ⟨hcomputed', hstored'⟩
    · rw [hstep, hsame]
      exact ih r
    · rw [hstep, hcomputed, hcomputed', hstored, hstored', List.append_assoc]
      exact ⟨rfl, _, rfl⟩

theorem exists_after_append (ds es : List Declaration) :
    ∃ fs, (after (ds ++ es)).stored = (after ds).stored ++ fs ∧
      (after (ds ++ es)).fields = (after ds).fields ++ fs := by
  have hattempts : after (ds ++ es) = (after ds).attempts es := List.foldl_append
  obtain ⟨hcomputed, fs, hstored⟩ := (after ds).exists_attempts_eq es
  refine ⟨fs, by rw [hattempts, hstored], ?_⟩
  rw [hattempts, fields, hcomputed, hstored, fields, List.append_assoc]

theorem rowLength_after_le (ds es : List Declaration) :
    (after ds).rowLength ≤ (after (ds ++ es)).rowLength := by
  obtain ⟨fs, hstored, -⟩ := exists_after_append ds es
  rw [rowLength, rowLength, hstored, List.map_append, List.sum_append]
  exact Nat.le_add_right _ _

/-- The entries of each layout are those of the fields in their order, and they divide the
record. Fields that are appended later leave them as they are. No sum on the way was too
large: neither a row length at which a field was placed nor the running sum of a decoded
site. The field table of the same declarations has the same layouts. -/
structure LaidOut (ds : List Declaration) : Prop where
  diskEntries : List.Forall₂ DiskEntry (after ds).stored (after ds).diskLayout.entries
  memoryEntries : List.Forall₂ MemoryEntry (after ds).fields (after ds).memoryLayout.entries
  disk_partitioned : (after ds).diskLayout.Partitioned
  memory_partitioned : (after ds).memoryLayout.Partitioned
  recordSize_eq : (after ds).diskLayout.recordSize = (after ds).rowLength
  disk_prefix : ∀ es, (after ds).diskLayout.entries <+: (after (ds ++ es)).diskLayout.entries
  memory_prefix : ∀ es,
    (after ds).memoryLayout.entries <+: (after (ds ++ es)).memoryLayout.entries
  checked_rowLength : ∀ before, before <+: ds →
    Checked.totalSize 0 (after before).stored = .ok (after before).rowLength
  checked_pack : Checked.pack 0 (after ds).fields = .ok (after ds).memoryLayout
  diskLayout_eq : (after ds).diskLayout = (FieldTable.after ds).diskLayout
  memoryLayout_eq : (after ds).memoryLayout = (FieldTable.after ds).memoryLayout

/-- After any appends whose sizes fit into words, both layouts divide their records. -/
theorem layouts_partitioned (ds : List Declaration) (hdisk : (after ds).rowLength < UInt64.size)
    (hmemory : (after ds).memoryLayout.recordSize < UInt64.size) : LaidOut ds := by
  have h : (after ds).Represents (.after ds) := represents_after ds
  refine
    { diskEntries := h.forall₂_diskLayout
      memoryEntries := forall₂_pack 0 _
      disk_partitioned := .of_consecutive h.consecutive_diskLayout
      memory_partitioned := .of_consecutive (consecutive_pack 0 _)
      recordSize_eq := rfl
      disk_prefix := ?_
      memory_prefix := ?_
      checked_rowLength := ?_
      checked_pack := Checked.pack_eq_ok hmemory
      diskLayout_eq := h.diskLayout_eq
      memoryLayout_eq := h.memoryLayout_eq }
  · intro es
    obtain ⟨fs, hstored, -⟩ := exists_after_append ds es
    rw [diskLayout, diskLayout, hstored, List.filterMap_append]
    exact List.prefix_append _ _
  · intro es
    obtain ⟨fs, -, hfields⟩ := exists_after_append ds es
    rw [memoryLayout, memoryLayout, hfields]
    exact entries_pack_prefix 0 _ fs
  · rintro before ⟨es, rfl⟩
    have hbefore : (after before).Represents (.after before) := represents_after before
    have hlt := Nat.lt_of_le_of_lt (rowLength_after_le before es) hdisk
    rw [hbefore.rowLength_eq] at hlt
    rw [hbefore.stored_eq, hbefore.rowLength_eq]
    exact Checked.rowLength_eq_ok hlt

/-- Two of these are refused: the second for its name, the last for want of elements. -/
def mixedDeclarations : List Declaration :=
  [⟨"shear", 1, .f32, .f64⟩, ⟨"shear", 2, .u32, .u32⟩, ⟨"count", 3, .u64, .u64⟩,
    ⟨"none", 0, .f64, .f32⟩]

theorem layouts_partitioned_mixed :
    (after mixedDeclarations).rowLength = 40 ∧
      (after mixedDeclarations).memoryLayout.recordSize = 64 ∧
      (after mixedDeclarations).diskLayout.Partitioned ∧
      (after mixedDeclarations).memoryLayout.Partitioned := by
  have h : (after mixedDeclarations).Represents (.after mixedDeclarations) :=
    represents_after mixedDeclarations
  have hrow : (after mixedDeclarations).rowLength = 40 := by
    rw [h.rowLength_eq]
    decide
  have hsite : (after mixedDeclarations).memoryLayout.recordSize = 64 := by
    rw [h.memoryLayout_eq]
    decide
  have hlaid := layouts_partitioned mixedDeclarations (by rw [hrow]; decide) (by rw [hsite]; decide)
  exact ⟨hrow, hsite, hlaid.disk_partitioned, hlaid.memory_partitioned⟩

end Registry

end LatticeSeries
