import LatticeSeries.Proofs.BlockElements
import LatticeSeries.Proofs.NameIndex

/-!
# Views of sites

A record holds its elements by columns, and a site is seen through three views: a
cut through a column, the cut that a field name leads to, and the cuts of all
columns in their order. The columns hold whole sites only, so the cuts of a column
are apart, leave nothing out and have the length of the field; and the names of the
columns are distinct, so the column that a name leads to is the one that was
declared with it.
-/
namespace LatticeSeries

-- Sums of sizes are those of core.
attribute [local instance (2000)] Zero.ofOfNat0

theorem flatMap_take_drop {α : Type} (xs : List α) (width count : Nat) :
    (List.range count).flatMap (fun i => (xs.drop (i * width)).take width) =
      xs.take (count * width) := by
  induction count with
  | zero => simp
  | succ count ih => rw [List.range_succ, List.flatMap_append, ih, Nat.succ_mul, List.take_add,
      List.flatMap_singleton]

/-- The name of a declared field leads to the field at its place in the row. -/
theorem FieldTable.get?_declared (t : FieldTable) {i : Nat} {d : Declaration}
    (hd : t.declared[i]? = some d) :
    t.get? d.name =
      some (d.placeAt (12 + ((t.declared.take i).map Declaration.diskSize).sum)) := by
  have hplaced := Declaration.getElem?_place Field.grid.diskSize t.declared i
  rw [hd] at hplaced
  refine get?_eq_some_iff.mpr ⟨?_, rfl⟩
  simp only [fields, stored, List.mem_cons]
  exact .inr (.inr (.inr (List.mem_map_of_mem (List.mem_of_getElem? hplaced))))

theorem Values.isSome_get?_iff (v : Values) (j : Nat) : (v.get? j).isSome ↔ j < v.size := by
  rw [← getElem?_toDoubles, ← length_toDoubles, isSome_getElem?]

namespace Column

variable {c : Column} {count site : Nat}

theorem size_slice (h : site * c.length + c.length ≤ c.data.size) :
    (c.slice site).size = c.length := by
  rw [← Values.length_scalars, scalars_slice, List.length_take, List.length_drop,
    Values.length_scalars]
  omega

/-- The cuts of all sites, one after the other, are the column. -/
theorem flatMap_scalars_slice (h : c.data.size = count * c.length) :
    (List.range count).flatMap (fun site => (c.slice site).scalars) = c.data.scalars := by
  simp only [scalars_slice]
  rw [flatMap_take_drop, ← h, ← Values.length_scalars, List.take_length]

theorem getElem?_scalars_slice {e : Nat} (he : e < c.length) :
    (c.slice site).scalars[e]? = c.data.scalars[site * c.length + e]? := by
  rw [scalars_slice, List.getElem?_take_of_lt he, List.getElem?_drop]

end Column

namespace Record

variable {coding : ValueCoding} {table : FieldTable} {header : Header} {timeStep : UInt64}
  {block : Bytes} {r : Record} {name : String}

theorem ofBlock_eq_ok_iff :
    ofBlock coding table header timeStep block = .ok r ↔
      block.length = table.rowLength * header.siteCount.toNat ∧
        ofRows coding table header timeStep
          (pieces table.rowLength header.siteCount.toNat block) = r := by
  unfold ofBlock
  dsimp only
  split_ifs with hlength
  · simp [hlength]
  · simp [hlength]

theorem size_ofRows (rows : List Bytes) :
    (ofRows coding table header timeStep rows).size = rows.length := by
  simp [ofRows, size]

/-- The columns are those of the declared fields, in the order of their declaration. -/
def Matches (r : Record) (table : FieldTable) : Prop :=
  r.columns.map (fun c => (c.name, c.length)) =
    table.declared.map fun d => (d.name, d.length.toNat)

theorem matches_ofRows (rows : List Bytes) :
    (ofRows coding table header timeStep rows).Matches table := by
  rw [Matches, ← table.map_zipIdx_placed, ofRows, List.map_map]
  rfl

namespace Matches

variable (h : r.Matches table)
include h

theorem map_name_columns : r.columns.map Column.name = table.declared.map Declaration.name := by
  have hnames := congrArg (List.map Prod.fst) h
  rwa [List.map_map, List.map_map] at hnames

theorem column?_eq_some_iff {c : Column} :
    r.column? name = some c ↔ c ∈ r.columns ∧ c.name = name := by
  apply find?_eq_some_iff_of_nodup
  rw [h.map_name_columns]
  exact (List.nodup_append.mp table.names_nodup).2.1

theorem isSome_column?_iff : (r.column? name).isSome ↔ ∃ d ∈ table.declared, d.name = name := by
  have hnames : name ∈ r.columns.map Column.name ↔ name ∈ table.declared.map Declaration.name := by
    rw [h.map_name_columns]
  rw [Option.isSome_iff_exists]
  simpa only [h.column?_eq_some_iff, List.mem_map] using hnames

theorem exists_declared {c : Column} (hc : c ∈ r.columns) :
    ∃ d ∈ table.declared, c.name = d.name ∧ c.length = d.length.toNat := by
  have hmem := List.mem_map_of_mem (f := fun c : Column => (c.name, c.length)) hc
  rw [h] at hmem
  obtain ⟨d, hd, heq⟩ := List.mem_map.mp hmem
  obtain ⟨hname, hlength⟩ := Prod.mk.inj heq
  exact ⟨d, hd, hname.symm, hlength.symm⟩

end Matches

theorem matches_of_ofBlock (h : ofBlock coding table header timeStep block = .ok r) :
    r.Matches table := by
  obtain ⟨-, rfl⟩ := ofBlock_eq_ok_iff.mp h
  exact matches_ofRows _

theorem size_of_ofBlock (h : ofBlock coding table header timeStep block = .ok r) :
    r.size = header.siteCount.toNat := by
  obtain ⟨-, rfl⟩ := ofBlock_eq_ok_iff.mp h
  rw [size_ofRows, length_pieces]

/-- A column has no more elements than the block has bytes. -/
theorem size_data_le (h : ofBlock coding table header timeStep block = .ok r) {c : Column}
    (hc : c ∈ r.columns) : c.data.size ≤ block.length := by
  obtain ⟨d, hd, -, hwidth⟩ := (matches_of_ofBlock h).exists_declared hc
  have helements : d.length.toNat ≤ d.diskSize :=
    Nat.le_mul_of_pos_left _ d.diskType.size_pos
  have hdata : c.data.size = r.size * c.length := r.size_data c hc
  calc c.data.size = header.siteCount.toNat * d.length.toNat := by
        rw [hdata, hwidth, size_of_ofBlock h]
    _ ≤ header.siteCount.toNat * d.diskSize := Nat.mul_le_mul_left _ helements
    _ ≤ block.length :=
        Checked.part_le_length (ofBlock_eq_ok_iff.mp h).1 (table.diskSize_le_rowLength hd)

variable {s : Site} {i : Nat}

theorem getElem?_sites (r : Record) (i : Nat) : r.sites[i]? = r.site? i :=
  List.getElem?_ofFn

theorem site?_eq_some_iff : r.site? i = some s ↔ ∃ h : i < r.size, s = ⟨r, ⟨i, h⟩⟩ := by
  unfold site?
  split_ifs with h
  · simp [h, eq_comm]
  · simp [h]

theorem mem_sites_iff : s ∈ r.sites ↔ ∃ i, ∃ h : i < r.size, s = ⟨r, ⟨i, h⟩⟩ := by
  simp only [List.mem_iff_getElem?, getElem?_sites, site?_eq_some_iff]

theorem map_index_sites (r : Record) : r.sites.map (fun s => s.index.val) = List.range r.size := by
  apply List.ext_getElem
  · simp [sites]
  · intro i hi hi'
    simp [sites]

end Record

/-- The site has this number in the record. -/
structure Site.IsAt (s : Site) (r : Record) (i : Nat) : Prop where
  record_eq : s.record = r
  index_eq : s.index.val = i
  id_eq : r.ids[i]? = some s.id
  toNat_id : s.id.toNat = i
  place_eq : r.places[i]? = some s.place

theorem Site.isAt (s : Site) (hsize : s.record.size < UInt64.size) :
    s.IsAt s.record s.index where
  record_eq := rfl
  index_eq := rfl
  id_eq := by
    rw [Record.ids, List.getElem?_map, List.getElem?_range s.index.isLt]
    rfl
  toNat_id := UInt64.toNat_ofNat_of_lt' (Nat.lt_trans s.index.isLt hsize)
  place_eq := Array.getElem?_eq_getElem s.index.isLt

namespace Checked

theorem range_eq_ok {v : Values} {start stop : Nat} (h : start ≤ stop) (hstop : stop ≤ v.size) :
    range v start stop = .ok (v.extract start stop) :=
  if_pos ⟨h, hstop⟩

/-- No bound of a cut wraps when the data hold it. -/
theorem valuesAt_eq_ok {c : Column} {site : Nat} (h : site * c.length + c.length ≤ c.data.size)
    (hdata : c.data.size < UInt64.size) : valuesAt c site = .ok (c.slice site) := by
  have hstart : mul site c.length = .ok (site * c.length) := mul_eq_ok (by omega)
  have hstop : add (site * c.length) c.length = .ok _ := add_eq_ok (by omega)
  rw [valuesAt, hstart, ok_bind, hstop, ok_bind, range_eq_ok (Nat.le_add_right _ _) h]
  rfl

/-- No view of the site faults, whatever name is asked for. -/
structure Views (s : Site) : Prop where
  id_eq : siteId s = .ok s.id
  place_eq : sitePlace s = .ok s.place
  value?_eq : ∀ name, siteValue? s name = .ok (s.value? name)
  values_eq : siteValues s = .ok s.values

theorem views {s : Site} (hsize : s.record.size < UInt64.size)
    (hdata : ∀ c ∈ s.record.columns, c.data.size < UInt64.size) : Views s := by
  have hat := s.isAt hsize
  have hcut : ∀ c ∈ s.record.columns, valuesAt c s.index = .ok (c.slice s.index) := fun c hc =>
    valuesAt_eq_ok (s.record.le_size_data hc s.index.isLt) (hdata c hc)
  refine ⟨element_eq_ok hat.id_eq, element_eq_ok ?place, ?value, mapM_eq_ok ?values⟩
  case place =>
    rw [Array.getElem?_toList]
    exact hat.place_eq
  case value =>
    intro name
    rw [siteValue?, Site.value?]
    cases hcolumn : s.record.column? name with
    | none => rfl
    | some c =>
      dsimp only
      rw [hcut c (List.mem_of_find?_eq_some hcolumn)]
      rfl
  case values =>
    intro c hc
    rw [hcut c hc]
    rfl

end Checked

namespace Record

variable {coding : ValueCoding} {table : FieldTable} {header : Header} {timeStep : UInt64}
  {block : Bytes} {r : Record}

/-- What the sites of a record show of declared field `i`, whose column is `c`: by
name and in the order of the fields the same cut through the column, of the length
of the field. The cuts of all sites in their order are the column. -/
structure Shows (r : Record) (i : Nat) (d : Declaration) (c : Column) : Prop where
  column_eq : r.columns[i]? = some c
  column?_eq : r.column? d.name = some c
  value?_eq : ∀ s ∈ r.sites, s.value? d.name = some (c.slice s.index)
  entry_eq : ∀ s ∈ r.sites, s.values[i]? = some (d.name, c.slice s.index)
  size_eq : ∀ s ∈ r.sites, (c.slice s.index).size = d.length.toNat
  scalars_eq : (r.sites.filterMap (·.value? d.name)).flatMap Values.scalars = c.data.scalars

theorem Matches.shows (h : r.Matches table) {i : Nat} {d : Declaration} {c : Column}
    (hc : r.columns[i]? = some c) (hname : c.name = d.name) (hlength : c.length = d.length.toNat) :
    r.Shows i d c := by
  have hmem : c ∈ r.columns := List.mem_of_getElem? hc
  have hwhole : c.data.size = r.size * c.length := r.size_data c hmem
  have hcolumn : r.column? d.name = some c := h.column?_eq_some_iff.mpr ⟨hmem, hname⟩
  have hvalue : ∀ s ∈ r.sites, s.value? d.name = some (c.slice s.index) := by
    intro s hs
    obtain ⟨site, hsite, rfl⟩ := mem_sites_iff.mp hs
    rw [Site.value?, hcolumn]
    rfl
  refine ⟨hc, hcolumn, hvalue, ?entry, ?size, ?scalars⟩
  case entry =>
    intro s hs
    obtain ⟨site, hsite, rfl⟩ := mem_sites_iff.mp hs
    rw [Site.values, List.getElem?_map, hc, ← hname]
    rfl
  case size =>
    intro s hs
    obtain ⟨site, hsite, rfl⟩ := mem_sites_iff.mp hs
    rw [Column.size_slice (r.le_size_data hmem hsite), hlength]
  case scalars =>
    have hcuts : r.sites.filterMap (·.value? d.name) = r.sites.map fun s => c.slice s.index := by
      rw [List.filterMap_congr hvalue]
      exact congrFun List.filterMap_eq_map' r.sites
    rw [hcuts, List.flatMap_map, ← Column.flatMap_scalars_slice hwhole, ← map_index_sites,
      List.flatMap_map]

theorem Matches.isSome_value?_iff (h : r.Matches table) {s : Site} (hs : s ∈ r.sites)
    (name : String) : (s.value? name).isSome ↔ ∃ d ∈ table.declared, d.name = name := by
  obtain ⟨site, hsite, rfl⟩ := mem_sites_iff.mp hs
  rw [Site.value?, Option.isSome_map, h.isSome_column?_iff]

theorem Matches.map_fst_values (h : r.Matches table) {s : Site} (hs : s ∈ r.sites) :
    s.values.map Prod.fst = table.declared.map Declaration.name := by
  obtain ⟨site, hsite, rfl⟩ := mem_sites_iff.mp hs
  rw [← h.map_name_columns, Site.values, List.map_map]
  rfl

/-- The fields that are not declared have no columns. -/
theorem Matches.value?_of_mem_reservedNames (h : r.Matches table) {s : Site} (hs : s ∈ r.sites)
    {name : String} (hname : name ∈ reservedNames) : s.value? name = none := by
  have hdisjoint := (List.nodup_append.mp table.names_nodup).2.2
  rw [← Option.not_isSome_iff_eq_none, h.isSome_value?_iff hs]
  rintro ⟨d, hd, rfl⟩
  exact hdisjoint d.name hname d.name (List.mem_map_of_mem hd) rfl

/-- A name leads to elements of the site exactly if a field was declared with it, not for
the identifier, the position or the coordinate. -/
structure ShowsNames (table : FieldTable) (s : Site) : Prop where
  isSome_value?_iff : ∀ name, (s.value? name).isSome ↔ ∃ d ∈ table.declared, d.name = name
  value?_reserved : ∀ name ∈ reservedNames, s.value? name = none
  map_fst_values : s.values.map Prod.fst = table.declared.map Declaration.name

/-- The sites of a record are numbered from zero up to its size, and each has the
identifier and the place of its number. On a machine no view of a site faults. The
elements that a name leads to are those that stand at the place of the field among all
elements of the site, as many as the field has, and they were read from the row of the
site at the offset that the table has for this name. The elements of a field at all sites,
one site after the other, are its column. Taken one by one, elements are those of the list
of all of them, and there are no others. -/
structure Partitioned (coding : ValueCoding) (table : FieldTable) (block : Bytes) (r : Record) :
    Prop where
  isSome_site?_iff : ∀ i, (r.site? i).isSome ↔ i < r.size
  length_sites : r.sites.length = r.size
  getElem?_sites : ∀ i, r.sites[i]? = r.site? i
  isAt : ∀ i s, r.site? i = some s → s.IsAt r i
  checked : block.length < UInt64.size → ∀ s ∈ r.sites, Checked.Views s
  names : ∀ s ∈ r.sites, ShowsNames table s
  fields : ∀ i d, table.declared[i]? = some d → ∃ offset c,
    table.get? d.name = some (d.placeAt offset) ∧
    (Registry.after table.declared).get? d.name = some (d.placeAt offset) ∧
    r.Shows i d c ∧
    c.data.type = (if d.memoryType = .f32 then .f32 else .f64) ∧
    ∀ s ∈ r.sites, ∀ e < d.length.toNat,
      (c.slice s.index).scalars[e]? = some (.kept d.memoryType (coding.applied i
        (Scalar.readAt d.diskType block
          (s.index * table.rowLength + offset + e * d.diskType.size)).toDouble))
  get?_eq : ∀ (v : Values) j, v.get? j = v.toDoubles[j]?
  isSome_get?_iff : ∀ (v : Values) j, (v.get? j).isSome ↔ j < v.size

/-- The three views of the sites of a decoded block agree and partition its columns. -/
theorem views_partition (h : ofBlock coding table header timeStep block = .ok r) :
    Partitioned coding table block r := by
  have hmatches := matches_of_ofBlock h
  have hsites := size_of_ofBlock h
  have hsize : r.size < UInt64.size := hsites ▸ header.siteCount.toNat_lt
  refine
    { isSome_site?_iff := Record.isSome_site?_iff r
      length_sites := List.length_ofFn
      getElem?_sites := Record.getElem?_sites r
      isAt := ?number
      checked := ?machine
      names := ?names
      fields := ?fields
      get?_eq := fun v j => (v.getElem?_toDoubles j).symm
      isSome_get?_iff := fun v j => v.isSome_get?_iff j }
  case number =>
    intro i s hs
    obtain ⟨hi, rfl⟩ := site?_eq_some_iff.mp hs
    exact Site.isAt _ hsize
  case machine =>
    intro hblock s hs
    obtain ⟨site, hsite, rfl⟩ := mem_sites_iff.mp hs
    exact Checked.views hsize fun c hc => Nat.lt_of_le_of_lt (size_data_le h hc) hblock
  case names =>
    exact fun s hs => ⟨hmatches.isSome_value?_iff hs,
      fun _ hname => hmatches.value?_of_mem_reservedNames hs hname, hmatches.map_fst_values hs⟩
  case fields =>
    intro i d hd
    obtain ⟨c, hc, hread⟩ := @exists_column coding table header timeStep block i d hd
    obtain ⟨-, rfl⟩ := ofBlock_eq_ok_iff.mp h
    have hget := table.get?_declared hd
    have hregistry := (Registry.represents_after_declared table).get?_eq d.name
    refine ⟨_, c, hget, hregistry.trans hget, hmatches.shows hc hread.name hread.length, hread.type,
      ?_⟩
    intro s hs e he
    obtain ⟨site, hsite, rfl⟩ := mem_sites_iff.mp hs
    rw [Column.getElem?_scalars_slice (hread.length ▸ he), hread.length]
    exact hread.element site (hsites ▸ hsite) e he

theorem views_partition_sample :
    let header := (Recording.sample .four).header
    let block := [mixedRow 3, mixedRow 8].flatMap Row.encode
    ∃ r, ofBlock .absolute mixedTable header 7 block = .ok r ∧ r.sites.length = 2 ∧
      (∀ s ∈ r.sites, Checked.Views s ∧ (s.value? "age").isSome ∧ s.value? "grid" = none) ∧
      ∃ c, r.Shows 0 ⟨"shear", 2, .f32, .f64⟩ c := by
  intro header block
  have hrecord : ofBlock .absolute mixedTable header 7 block = .ok _ :=
    ofBlock_eq_ok_iff.mpr ⟨by decide +kernel, rfl⟩
  have hviews := views_partition hrecord
  obtain ⟨-, c, -, -, hshows, -⟩ := hviews.fields 0 _ rfl
  refine ⟨_, hrecord, hviews.length_sites.trans (size_of_ofBlock hrecord), fun s hs => ?_,
    c, hshows⟩
  have hnames := hviews.names s hs
  exact ⟨hviews.checked (by decide +kernel) s hs,
    (hnames.isSome_value?_iff "age").mpr ⟨_, .tail _ (.head _), rfl⟩,
    hnames.value?_reserved "grid" (by decide)⟩

end Record

end LatticeSeries
