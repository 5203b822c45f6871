import LatticeSeries.Proofs.Pieces
import LatticeSeries.Recording

/-!
# Rows and records as codecs

A row of the right length is the encoding of one coordinate and of cells that
fit the declared fields, and of no others. Records inherit this: a marker and
rows of equal length, with nothing between them.
-/
namespace LatticeSeries

-- Sums of sizes are those of core.
attribute [local instance (2000)] Zero.ofOfNat0

/-- A placed field ends where the fields from its own on can still follow. -/
theorem Declaration.add_diskSize_le {ds : List Declaration} {start : Nat} {p : Declaration × Nat}
    (h : p ∈ place start ds) : p.2 + p.1.diskSize ≤ start + (ds.map diskSize).sum := by
  induction ds generalizing start with
  | nil => cases h
  | cons d ds ih =>
    rw [place_cons] at h
    rw [List.map_cons, List.sum_cons]
    rcases List.mem_cons.mp h with rfl | h
    · dsimp only
      omega
    · have hrest := ih h
      omega

/-- The offset of a field is the sum of the sizes before it. -/
theorem Declaration.getElem?_place (start : Nat) (ds : List Declaration) (i : Nat) :
    (place start ds)[i]? = ds[i]?.map fun d => (d, start + ((ds.take i).map diskSize).sum) := by
  induction ds generalizing start i with
  | nil => simp
  | cons d ds ih =>
    cases i with
    | zero => simp
    | succ i =>
      rw [place_cons, List.getElem?_cons_succ, ih, List.getElem?_cons_succ, List.take_succ_cons,
        List.map_cons, List.sum_cons, Nat.add_assoc]

/-- What depends on the declarations alone is found from the placed and numbered ones too. -/
theorem FieldTable.map_zipIdx_placed {α : Type} (t : FieldTable) (f : Declaration → α) :
    (t.placed.zipIdx.map fun p => f p.1.1) = t.declared.map f := by
  have hplaced : t.placed.zipIdx.map Prod.fst = t.placed := List.zipIdx_map_fst 0 t.placed
  have hdeclared : t.placed.map Prod.fst = t.declared := Declaration.map_fst_place _ _
  calc (t.placed.zipIdx.map fun p => f p.1.1)
      = ((t.placed.zipIdx.map Prod.fst).map Prod.fst).map f := by
        rw [List.map_map, List.map_map]
        rfl
    _ = t.declared.map f := by rw [hplaced, hdeclared]

theorem FieldTable.grid_le_rowLength (t : FieldTable) : Field.grid.diskSize ≤ t.rowLength := by
  rw [rowLength_eq]
  exact Nat.le_add_right _ _

theorem FieldTable.placed_le_rowLength (t : FieldTable) {p : Declaration × Nat}
    (h : p ∈ t.placed) : p.2 + p.1.diskSize ≤ t.rowLength := by
  rw [rowLength_eq]
  exact Declaration.add_diskSize_le h

theorem FieldTable.diskSize_le_rowLength (t : FieldTable) {d : Declaration}
    (h : d ∈ t.declared) : d.diskSize ≤ t.rowLength := by
  rw [← Declaration.map_fst_place Field.grid.diskSize t.declared] at h
  obtain ⟨p, hp, rfl⟩ := List.mem_map.mp h
  exact Nat.le_trans (Nat.le_add_left _ _) (t.placed_le_rowLength hp)

namespace Scalar

theorem length_flatMap_encode {type : ElementType} {xs : List Scalar}
    (h : ∀ x ∈ xs, x.type = type) : (xs.flatMap encode).length = xs.length * type.size :=
  length_flatMap_of_length fun x hx => by rw [length_encode, h x hx]

theorem decodeMany_append {type : ElementType} {xs : List Scalar} (h : ∀ x ∈ xs, x.type = type)
    (rest : Bytes) : decodeMany type xs.length (xs.flatMap encode ++ rest) = xs := by
  induction xs with
  | nil => rfl
  | cons x xs ih =>
    obtain ⟨hx, hxs⟩ := List.forall_mem_cons.mp h
    have hlen : x.encode.length = type.size := by rw [length_encode, hx]
    rw [List.length_cons, List.flatMap_cons, List.append_assoc, decodeMany,
      List.take_left' hlen, List.drop_left' hlen, ih hxs, ← hx, decode_encode]

theorem flatMap_encode_decodeMany {type : ElementType} {count : Nat} {bytes : Bytes}
    (h : count * type.size ≤ bytes.length) :
    (decodeMany type count bytes).flatMap encode = bytes.take (count * type.size) := by
  induction count generalizing bytes with
  | zero => simp [decodeMany]
  | succ count ih =>
    rw [Nat.succ_mul] at h
    have hfirst : (bytes.take type.size).length = type.size :=
      List.length_take_of_le (by omega)
    have hrest : count * type.size ≤ (bytes.drop type.size).length := by
      rw [List.length_drop]
      omega
    rw [decodeMany, List.flatMap_cons, encode_decode hfirst, ih hrest, Nat.succ_mul,
      Nat.add_comm, List.take_add]

theorem decodeMany_take {type : ElementType} {count n : Nat} {bytes : Bytes}
    (h : count * type.size ≤ n) :
    decodeMany type count (bytes.take n) = decodeMany type count bytes := by
  induction count generalizing bytes n with
  | zero => rfl
  | succ count ih =>
    rw [Nat.succ_mul] at h
    have hrest : count * type.size ≤ n - type.size := by omega
    rw [decodeMany, decodeMany, List.take_take, Nat.min_eq_left (by omega), List.drop_take,
      ih hrest]

theorem type_of_mem_decodeMany {type : ElementType} {count : Nat} {bytes : Bytes} {x : Scalar}
    (h : x ∈ decodeMany type count bytes) : x.type = type := by
  induction count generalizing bytes with
  | zero => cases h
  | succ count ih =>
    rw [decodeMany] at h
    rcases List.mem_cons.mp h with rfl | h
    · exact type_decode type _
    · exact ih h

end Scalar

namespace Grid

theorem length_encode (g : Grid) : (encode g).length = Field.grid.diskSize := by
  simp [encode, Field.diskSize, Field.grid, ElementType.size]

theorem decode_append (g : Grid) (rest : Bytes) : decode (encode g ++ rest) = g := by
  simp [decode, encode, List.drop_append, List.drop_eq_nil_of_le]

theorem encode_decode {row : Bytes} (h : Field.grid.diskSize ≤ row.length) :
    encode (decode row) = row.take Field.grid.diskSize := by
  have h : 12 ≤ row.length := h
  have hx : (row.take 4).length = 4 := List.length_take_of_le (by omega)
  have hy : ((row.drop 4).take 4).length = 4 := by
    rw [List.length_take, List.length_drop]
    omega
  have hz : ((row.drop 8).take 4).length = 4 := by
    rw [List.length_take, List.length_drop]
    omega
  rw [encode, decode, bytesOfU32_u32OfBytes hx, bytesOfU32_u32OfBytes hy,
    bytesOfU32_u32OfBytes hz, ← List.take_add, ← List.take_add]
  rfl

end Grid

namespace Row

/-- The cells of the fields that follow each other from an offset. -/
def cellsFrom (offset : Nat) (ds : List Declaration) (row : Bytes) : List (List Scalar) :=
  (Declaration.place offset ds).map fun (d, offset) =>
    Scalar.decodeMany d.diskType d.length.toNat (row.drop offset)

@[simp] theorem cellsFrom_nil (offset : Nat) (row : Bytes) : cellsFrom offset [] row = [] := rfl

@[simp] theorem cellsFrom_cons (offset : Nat) (d : Declaration) (ds : List Declaration)
    (row : Bytes) : cellsFrom offset (d :: ds) row =
      Scalar.decodeMany d.diskType d.length.toNat (row.drop offset) ::
        cellsFrom (offset + d.diskSize) ds row := rfl

def decode (table : FieldTable) (row : Bytes) : Row :=
  ⟨Grid.decode row, cellsFrom Field.grid.diskSize table.declared row⟩

theorem getElem?_cells_decode (table : FieldTable) (row : Bytes) (index : Nat) :
    (decode table row).cells[index]? = table.placed[index]?.map fun (d, offset) =>
      Scalar.decodeMany d.diskType d.length.toNat (row.drop offset) :=
  List.getElem?_map

theorem CellsFit.length_eq {ds : List Declaration} {cells : List (List Scalar)}
    (h : CellsFit ds cells) : cells.length = ds.length := by
  induction ds generalizing cells with
  | nil =>
    cases cells with
    | nil => rfl
    | cons => cases h
  | cons d ds ih =>
    cases cells with
    | nil => cases h
    | cons cell cells => rw [List.length_cons, ih h.2, List.length_cons]

theorem CellsFit.exists_getElem? {ds : List Declaration} {cells : List (List Scalar)}
    (h : CellsFit ds cells) {index : Nat} {d : Declaration} (hd : ds[index]? = some d) :
    ∃ cell, cells[index]? = some cell ∧ cell.length = d.length.toNat ∧
      ∀ x ∈ cell, x.type = d.diskType := by
  induction ds generalizing cells index with
  | nil => simp at hd
  | cons e ds ih =>
    cases cells with
    | nil => cases h
    | cons cell cells =>
      rcases h with ⟨hfirst, hrest⟩
      cases index with
      | zero =>
        obtain rfl : e = d := by simpa using hd
        exact ⟨cell, rfl, hfirst⟩
      | succ index =>
        have hnext : ds[index]? = some d := by simpa using hd
        simpa using ih hrest hnext

theorem length_flatten_encode {ds : List Declaration} {cells : List (List Scalar)}
    (h : CellsFit ds cells) :
    (cells.flatten.flatMap Scalar.encode).length = (ds.map Declaration.diskSize).sum := by
  induction ds generalizing cells with
  | nil =>
    cases cells with
    | nil => rfl
    | cons => cases h
  | cons d ds ih =>
    cases cells with
    | nil => cases h
    | cons cell cells =>
      rcases h with ⟨⟨hcount, htypes⟩, hrest⟩
      rw [List.flatten_cons, List.flatMap_append, List.length_append, ih hrest,
        Scalar.length_flatMap_encode htypes, hcount, List.map_cons, List.sum_cons,
        Declaration.diskSize, Nat.mul_comm]

/-- The induction moves the offset past the cells that are read already. -/
theorem cellsFrom_append {ds : List Declaration} {cells : List (List Scalar)}
    (h : CellsFit ds cells) (front : Bytes) :
    cellsFrom front.length ds (front ++ cells.flatten.flatMap Scalar.encode) = cells := by
  induction ds generalizing cells front with
  | nil =>
    cases cells with
    | nil => rfl
    | cons => cases h
  | cons d ds ih =>
    cases cells with
    | nil => cases h
    | cons cell cells =>
      rcases h with ⟨⟨hcount, htypes⟩, hrest⟩
      have hcell : (cell.flatMap Scalar.encode).length = d.diskSize := by
        rw [Scalar.length_flatMap_encode htypes, hcount, Declaration.diskSize, Nat.mul_comm]
      have hnext := ih hrest (front ++ cell.flatMap Scalar.encode)
      rw [List.length_append, hcell, List.append_assoc] at hnext
      rw [List.flatten_cons, List.flatMap_append, cellsFrom_cons, hnext, List.drop_left,
        ← hcount, Scalar.decodeMany_append htypes]

theorem flatMap_encode_cellsFrom {ds : List Declaration} {offset : Nat} {row : Bytes}
    (h : offset + (ds.map Declaration.diskSize).sum ≤ row.length) :
    (cellsFrom offset ds row).flatten.flatMap Scalar.encode =
      (row.drop offset).take (ds.map Declaration.diskSize).sum := by
  induction ds generalizing offset with
  | nil => simp
  | cons d ds ih =>
    rw [List.map_cons, List.sum_cons] at h ⊢
    have hcell : d.length.toNat * d.diskType.size ≤ (row.drop offset).length := by
      rw [List.length_drop, Nat.mul_comm]
      change d.diskSize ≤ _
      omega
    have hsize : d.length.toNat * d.diskType.size = d.diskSize := Nat.mul_comm _ _
    rw [cellsFrom_cons, List.flatten_cons, List.flatMap_append,
      Scalar.flatMap_encode_decodeMany hcell, ih (by omega), hsize, List.take_add, List.drop_drop]

theorem cellsFit_cellsFrom (offset : Nat) (ds : List Declaration) (row : Bytes) :
    CellsFit ds (cellsFrom offset ds row) := by
  induction ds generalizing offset with
  | nil => trivial
  | cons d ds ih =>
    refine ⟨⟨Scalar.length_decodeMany _ _ _, ?_⟩, ih _⟩
    intro x hx
    exact Scalar.type_of_mem_decodeMany hx

variable {table : FieldTable}

theorem length_encode {r : Row} (h : CellsFit table.declared r.cells) :
    r.encode.length = table.rowLength := by
  rw [encode, List.length_append, Grid.length_encode, length_flatten_encode h,
    FieldTable.rowLength_eq]
  rfl

theorem decode_encode {r : Row} (h : CellsFit table.declared r.cells) :
    decode table r.encode = r := by
  have hcells := cellsFrom_append h (Grid.encode r.grid)
  rw [Grid.length_encode] at hcells
  rw [decode, encode, Grid.decode_append, hcells]

theorem encode_decode {row : Bytes} (h : row.length = table.rowLength) :
    (decode table row).encode = row := by
  rw [FieldTable.rowLength_eq] at h
  have hgrid : Field.grid.diskSize = 12 := rfl
  have hfit : Field.grid.diskSize + (table.declared.map Declaration.diskSize).sum ≤ row.length := by
    omega
  have hrest : (row.drop Field.grid.diskSize).take (table.declared.map Declaration.diskSize).sum =
      row.drop Field.grid.diskSize := by
    apply List.take_of_length_le
    rw [List.length_drop]
    omega
  rw [encode, decode, Grid.encode_decode (by omega), flatMap_encode_cellsFrom hfit, hrest,
    List.take_append_drop]

end Row

namespace Frame

def decode (table : FieldTable) (siteCount : Nat) (record : Bytes) : Frame :=
  ⟨u64OfBytes (record.take TimeIndex.markerLength),
    (pieces table.rowLength siteCount (record.drop TimeIndex.markerLength)).map
      (Row.decode table)⟩

/-- The time step has one row for each site, and the rows fit the fields. -/
structure Fits (table : FieldTable) (siteCount : Nat) (f : Frame) : Prop where
  length_rows : f.rows.length = siteCount
  cellsFit : ∀ row ∈ f.rows, Row.CellsFit table.declared row.cells

variable {table : FieldTable} {siteCount : Nat}

theorem Fits.length_encode {f : Frame} (h : f.Fits table siteCount) :
    f.encode.length = table.rowLength * siteCount + TimeIndex.markerLength := by
  have hrows : (f.rows.flatMap Row.encode).length = f.rows.length * table.rowLength :=
    length_flatMap_of_length fun row hrow => Row.length_encode (h.cellsFit row hrow)
  rw [encode, List.length_append, hrows, h.length_rows, length_bytesOfU64, Nat.mul_comm,
    Nat.add_comm]
  rfl

theorem take_encode (f : Frame) :
    f.encode.take TimeIndex.markerLength = bytesOfU64 f.timeStep :=
  List.take_left' (length_bytesOfU64 _)

theorem drop_encode (f : Frame) :
    f.encode.drop TimeIndex.markerLength = f.rows.flatMap Row.encode :=
  List.drop_left' (length_bytesOfU64 _)

theorem Fits.pieces_drop_encode {f : Frame} (h : f.Fits table siteCount) :
    pieces table.rowLength siteCount (f.encode.drop TimeIndex.markerLength) =
      f.rows.map Row.encode := by
  rw [drop_encode, ← h.length_rows]
  exact pieces_flatMap fun row hrow => Row.length_encode (h.cellsFit row hrow)

theorem Fits.decode_encode {f : Frame} (h : f.Fits table siteCount) :
    decode table siteCount f.encode = f := by
  have hrows : (f.rows.map Row.encode).map (Row.decode table) = f.rows := by
    have hrow : ∀ row ∈ f.rows, (Row.decode table ∘ Row.encode) row = id row := fun row hrow =>
      Row.decode_encode (h.cellsFit row hrow)
    rw [List.map_map, List.map_congr_left hrow, List.map_id]
  rw [decode, take_encode, u64OfBytes_bytesOfU64, h.pieces_drop_encode, hrows]

theorem fits_decode (record : Bytes) : (decode table siteCount record).Fits table siteCount := by
  refine ⟨by simp [decode], ?_⟩
  intro row hrow
  obtain ⟨bytes, -, rfl⟩ := List.mem_map.mp hrow
  exact Row.cellsFit_cellsFrom _ _ _

theorem encode_decode {record : Bytes}
    (h : record.length = table.rowLength * siteCount + TimeIndex.markerLength) :
    (decode table siteCount record).encode = record := by
  have hmarker : (record.take TimeIndex.markerLength).length = 8 :=
    List.length_take_of_le (by omega)
  have hblock : (record.drop TimeIndex.markerLength).length = siteCount * table.rowLength := by
    rw [List.length_drop, h, Nat.mul_comm]
    omega
  have hrow : ∀ row ∈ pieces table.rowLength siteCount (record.drop TimeIndex.markerLength),
      (Row.encode ∘ Row.decode table) row = id row := fun row hrow =>
    Row.encode_decode (length_of_mem_pieces (Nat.le_of_eq hblock.symm) hrow)
  have hrows : ((pieces table.rowLength siteCount (record.drop TimeIndex.markerLength)).map
      (Row.decode table)).flatMap Row.encode = record.drop TimeIndex.markerLength := by
    rw [List.flatMap_def, List.map_map, List.map_congr_left hrow, List.map_id, flatten_pieces,
      ← hblock, List.take_length]
  rw [encode, decode, bytesOfU64_u64OfBytes hmarker, hrows, List.take_append_drop]

end Frame

end LatticeSeries
