import LatticeSeries.Proofs.CommandRun
import LatticeSeries.Proofs.SiteViews

/-!
# Aligned tables

The names of a table and the elements under them are written by different loops, the
names from the columns of the record and the elements from the cuts of each site. Both
go through the declared fields in their order and write as many cells for a field as
it has elements, so all lines of a table have one width, and the place of a cell tells
to which element of which field it belongs, in the line of names and in the line of
every site.
-/
namespace LatticeSeries

-- Sums of sizes are those of core.
attribute [local instance (2000)] Zero.ofOfNat0

section Joined

variable {α β : Type} {xs : List α} {f : α → List β} {width : α → Nat}

theorem length_flatMap_eq_sum (h : ∀ x ∈ xs, (f x).length = width x) :
    (xs.flatMap f).length = (xs.map width).sum := by
  induction xs with
  | nil => rfl
  | cons x xs ih =>
    have hx := h x (by simp)
    have hxs := ih fun y hy => h y (by simp [hy])
    rw [List.flatMap_cons, List.length_append, hx, hxs, List.map_cons, List.sum_cons]

/-- What stands behind the cells of the first elements are the cells of the next. -/
theorem getElem?_flatMap_add (h : ∀ x ∈ xs, (f x).length = width x) {i : Nat} {x : α}
    (hx : xs[i]? = some x) {e : Nat} (he : e < width x) :
    (xs.flatMap f)[((xs.take i).map width).sum + e]? = (f x)[e]? := by
  induction xs generalizing i with
  | nil => cases hx
  | cons y xs ih =>
    obtain ⟨hy, hxs⟩ := List.forall_mem_cons.mp h
    cases i with
    | zero =>
      cases hx
      rw [List.flatMap_cons, List.take_zero, List.map_nil, List.sum_nil, Nat.zero_add,
        List.getElem?_append_left (hy ▸ he)]
    | succ i =>
      have hbehind : (f y).length ≤ (((y :: xs).take (i + 1)).map width).sum + e := by
        rw [List.take_succ_cons, List.map_cons, List.sum_cons, hy]
        omega
      rw [List.flatMap_cons, List.getElem?_append_right hbehind, List.take_succ_cons,
        List.map_cons, List.sum_cons, hy, Nat.add_assoc, Nat.add_sub_cancel_left]
      exact ih hxs hx

/-- Every place belongs to one cell of one element. -/
theorem existsUnique_place {k : Nat} (hk : k < (xs.map width).sum) :
    ∃! p : Nat × Nat, ∃ x, xs[p.1]? = some x ∧ p.2 < width x ∧
      k = ((xs.take p.1).map width).sum + p.2 := by
  induction xs generalizing k with
  | nil => exact absurd hk (Nat.not_lt_zero k)
  | cons y xs ih =>
    rw [List.map_cons, List.sum_cons] at hk
    by_cases hfirst : k < width y
    · refine ⟨(0, k), ⟨y, rfl, hfirst, (Nat.zero_add k).symm⟩, ?_⟩
      rintro ⟨_ | i, e⟩ ⟨x, hx, he, heq⟩
      · rw [heq, List.take_zero, List.map_nil, List.sum_nil, Nat.zero_add]
      · rw [List.take_succ_cons, List.map_cons, List.sum_cons] at heq
        omega
    · obtain ⟨⟨i, e⟩, ⟨x, hx, he, heq⟩, hunique⟩ := @ih (k - width y) (by omega)
      refine ⟨(i + 1, e), ⟨x, hx, he, ?_⟩, ?_⟩
      · rw [List.take_succ_cons, List.map_cons, List.sum_cons]
        dsimp only at heq ⊢
        omega
      · rintro ⟨_ | j, e'⟩ ⟨x', hx', he', heq'⟩
        · cases hx'
          rw [List.take_zero, List.map_nil, List.sum_nil, Nat.zero_add] at heq'
          exact absurd he' (heq' ▸ hfirst)
        · rw [List.take_succ_cons, List.map_cons, List.sum_cons] at heq'
          have hsame := hunique (j, e') ⟨x', hx', he', by dsimp only; omega⟩
          cases hsame
          rfl

end Joined

/-- For each declared field there is a column at its place. -/
theorem Record.Matches.exists_column {r : Record} {t : FieldTable} (h : r.Matches t) {i : Nat}
    {d : Declaration} (hd : t.declared[i]? = some d) :
    ∃ c, r.columns[i]? = some c ∧ c.name = d.name ∧ c.length = d.length.toNat := by
  have hpair := congrArg (·[i]?) h
  rw [List.getElem?_map, List.getElem?_map, hd] at hpair
  obtain ⟨c, hc, heq⟩ := Option.map_eq_some_iff.mp hpair
  obtain ⟨hname, hlength⟩ := Prod.mk.inj heq
  exact ⟨c, hc, hname, hlength⟩

namespace Report

/-- The name over an element of a declared field. -/
def elementName (d : Declaration) (e : Nat) : String :=
  if d.length = 1 then d.name else s!"{d.name}[{e}]"

/-- The cells of a line: seven for the site, then one for each element of every field. -/
def tableWidth (t : FieldTable) : Nat := 7 + (t.declared.map fun d => d.length.toNat).sum

/-- The place of the cell for element `e` of declared field `i`. -/
def cellOf (t : FieldTable) (i e : Nat) : Nat :=
  7 + ((t.declared.take i).map fun d => d.length.toNat).sum + e

variable {t : FieldTable} {r : Record} {c : Column} {d : Declaration}

theorem map_length_columns (h : r.Matches t) :
    r.columns.map Column.length = t.declared.map fun d => d.length.toNat := by
  have hlengths := congrArg (List.map Prod.snd) h
  rwa [List.map_map, List.map_map] at hlengths

theorem length_columnNames (c : Column) : (columnNames c).length = c.length := by
  unfold columnNames
  split
  · rename_i hone
    exact hone.symm
  · rw [List.length_map, List.length_range]

theorem getElem?_columnNames (hname : c.name = d.name) (hlength : c.length = d.length.toNat)
    {e : Nat} (he : e < c.length) : (columnNames c)[e]? = some (elementName d e) := by
  have hone : c.length = 1 ↔ d.length = 1 := by
    rw [hlength, ← UInt32.toNat_inj]
    rfl
  unfold columnNames elementName
  by_cases hd : d.length = 1
  · have hwidth := hone.mpr hd
    have hzero : e = 0 := by omega
    rw [if_pos (hone.mpr hd), if_pos hd, hzero, hname]
    rfl
  · rw [if_neg (mt hone.mp hd), if_neg hd, List.getElem?_map, List.getElem?_range he, hname]
    rfl

/-- The cells for the elements of a site in a column. -/
def columnCells (precision : Nat) (s : Site) (c : Column) : List String :=
  (c.slice s.index).toDoubles.map (·.toFixed precision)

/-- The cells for the place of a site. -/
def siteCells (precision : Nat) (s : Site) : List String :=
  [toString s.id] ++ s.place.position.toList.map (·.toFixed precision) ++
    s.place.grid.toList.map toString

theorem tableRow_eq (precision : Nat) (s : Site) :
    tableRow precision s =
      siteCells precision s ++ s.record.columns.flatMap (columnCells precision s) := by
  rw [tableRow, Site.values, List.flatMap_map]
  rfl

theorem take_tableRow (precision : Nat) (s : Site) :
    (tableRow precision s).take 7 = siteCells precision s := by
  rw [tableRow_eq]
  exact List.take_left' rfl

theorem length_columnCells (precision : Nat) (s : Site) :
    ∀ c ∈ s.record.columns, (columnCells precision s c).length = c.length := by
  intro c hc
  rw [columnCells, List.length_map, Values.length_toDoubles,
    Column.size_slice (s.record.le_size_data hc s.index.isLt)]

section Line

variable {first : List String} {cells : Column → List String} (hmatches : r.Matches t)
  (hfirst : first.length = 7) (hcells : ∀ c ∈ r.columns, (cells c).length = c.length)

include hmatches hfirst hcells

/-- A line with seven cells in front and a cell for each element of a column is as wide
as the table. -/
theorem length_line : (first ++ r.columns.flatMap cells).length = tableWidth t := by
  rw [List.length_append, hfirst, length_flatMap_eq_sum hcells, map_length_columns hmatches,
    tableWidth]

/-- The cells of a field begin at its place in the line. -/
theorem getElem?_line {i : Nat} (hc : r.columns[i]? = some c) {e : Nat} (he : e < c.length) :
    (first ++ r.columns.flatMap cells)[cellOf t i e]? = (cells c)[e]? := by
  have hplace : cellOf t i e = first.length + (((r.columns.take i).map Column.length).sum + e) := by
    rw [cellOf, hfirst, List.map_take, List.map_take, map_length_columns hmatches, Nat.add_assoc]
  rw [hplace, List.getElem?_append_right (Nat.le_add_right _ _), Nat.add_sub_cancel_left,
    getElem?_flatMap_add hcells hc he]

end Line

/-- The lines of a table of the record, cut into cells. All have the width of the table,
and there is one for each site behind the line of names. The first seven cells tell
which site it is and where, under the names that stand there in every table. The cell
for an element of a declared field has the name of the element above it, and is the
element that the site shows for the field, in decimal notation. Every further cell is
the cell for one element. -/
structure Aligned (form : OutputForm) (t : FieldTable) (r : Record) (head : List String)
    (rows : List (List String)) : Prop where
  length_rows : rows.length = r.size
  width_eq : ∀ cells ∈ head :: rows, cells.length = tableWidth t
  names : head.take 7 = ["id", "x", "y", "z", "i", "j", "k"]
  places : ∀ n s, r.site? n = some s → ∃ cells, rows[n]? = some cells ∧
    cells.take 7 = [toString n] ++ s.place.position.toList.map (·.toFixed form.precision) ++
      s.place.grid.toList.map toString
  elementNames : ∀ i d, t.declared[i]? = some d → ∀ e < d.length.toNat,
    head[cellOf t i e]? = some (elementName d e)
  elements : ∀ i d, t.declared[i]? = some d → ∀ e < d.length.toNat, ∀ n s, r.site? n = some s →
    ∃ cells v x, rows[n]? = some cells ∧ s.value? d.name = some v ∧ v.get? e = some x ∧
      cells[cellOf t i e]? = some (x.toFixed form.precision)
  cells : ∀ k, 7 ≤ k → k < tableWidth t → ∃! p : Nat × Nat, ∃ d,
    t.declared[p.1]? = some d ∧ p.2 < d.length.toNat ∧ k = cellOf t p.1 p.2

theorem existsUnique_cell {k : Nat} (hsite : 7 ≤ k) (hk : k < tableWidth t) :
    ∃! p : Nat × Nat, ∃ d, t.declared[p.1]? = some d ∧ p.2 < d.length.toNat ∧
      k = cellOf t p.1 p.2 := by
  have hplace : ∀ i e, k = cellOf t i e ↔
      k - 7 = ((t.declared.take i).map fun d => d.length.toNat).sum + e := by
    intro i e
    rw [cellOf]
    omega
  simp only [hplace]
  apply existsUnique_place
  rw [tableWidth] at hk
  omega

theorem aligned_table (form : OutputForm) (hmatches : r.Matches t) (hsize : r.size < UInt64.size) :
    Aligned form t r (tableHead r) (r.sites.map (tableRow form.precision)) := by
  have hrow : ∀ n s, r.site? n = some s →
      (r.sites.map (tableRow form.precision))[n]? = some (tableRow form.precision s) := by
    intro n s hs
    rw [List.getElem?_map, Record.getElem?_sites, hs]
    rfl
  refine ⟨?rows, ?width, rfl, ?places, ?names, ?elements, fun k => existsUnique_cell⟩
  case rows => rw [List.length_map, Record.sites, List.length_ofFn]
  case width =>
    intro cells hcells
    rcases List.mem_cons.mp hcells with rfl | hcells
    · exact length_line hmatches rfl fun c _ => length_columnNames c
    · obtain ⟨s, hs, rfl⟩ := List.mem_map.mp hcells
      obtain ⟨site, hsite, rfl⟩ := Record.mem_sites_iff.mp hs
      rw [tableRow_eq]
      exact length_line hmatches rfl (length_columnCells form.precision _)
  case places =>
    intro n s hs
    refine ⟨_, hrow n s hs, ?_⟩
    obtain ⟨hn, rfl⟩ := Record.site?_eq_some_iff.mp hs
    have hid : (Site.id ⟨r, ⟨n, hn⟩⟩).toNat = n := (Site.isAt ⟨r, ⟨n, hn⟩⟩ hsize).toNat_id
    have htext : toString (Site.id ⟨r, ⟨n, hn⟩⟩) = toString n := congrArg Nat.repr hid
    rw [take_tableRow, siteCells, htext]
  case names =>
    intro i d hd e he
    obtain ⟨c, hc, hname, hlength⟩ := hmatches.exists_column hd
    have hwithin : e < c.length := hlength ▸ he
    exact (getElem?_line hmatches rfl (fun c _ => length_columnNames c) hc hwithin).trans
      (getElem?_columnNames hname hlength hwithin)
  case elements =>
    intro i d hd e he n s hs
    obtain ⟨c, hc, hname, hlength⟩ := hmatches.exists_column hd
    have hwithin : e < c.length := hlength ▸ he
    have hshown := (hmatches.shows hc hname hlength).value?_eq s
      (List.mem_of_getElem? ((r.getElem?_sites n).trans hs))
    obtain ⟨hn, rfl⟩ := Record.site?_eq_some_iff.mp hs
    have hcell := getElem?_line hmatches (Eq.refl (siteCells form.precision ⟨r, ⟨n, hn⟩⟩).length)
      (length_columnCells form.precision ⟨r, ⟨n, hn⟩⟩) hc hwithin
    have hheld : e < (c.slice n).size := by
      rwa [Column.size_slice (r.le_size_data (List.mem_of_getElem? hc) hn)]
    obtain ⟨x, hx⟩ := Option.isSome_iff_exists.mp (((c.slice n).isSome_get?_iff e).mpr hheld)
    refine ⟨_, _, x, hrow n _ hs, hshown, hx, ?_⟩
    rw [tableRow_eq, hcell, columnCells, List.getElem?_map, Values.getElem?_toDoubles, hx]
    rfl

end Report

/-- A record that an open file gives has the columns of the file's fields. -/
theorem Series.matches_of_lookupByTimeStep {s : Series} {timeStep : UInt64} {r : Record}
    (h : s.lookupByTimeStep timeStep = .ok r) : r.Matches s.table := by
  obtain ⟨index, -, hindex⟩ := bind_eq_ok_iff.mp h
  obtain ⟨entry, -, hentry⟩ := bind_eq_ok_iff.mp hindex
  exact Record.matches_of_ofBlock hentry

namespace Session

open Report (unlines OneLine Aligned)

/-- Writing the table of this time step ends well, and nothing is written but the lines
of an aligned table of the record that the time step leads to. The delimiter stands
between the cells of a line. Unless it or a name brings a line feed of its own, these are
the lines of the text. -/
structure Prints (form : OutputForm) (s : Series) (timeStep : UInt64) (r : Record)
    (head : List String) (rows : List (List String)) : Prop where
  lookup_eq : s.lookupByTimeStep timeStep = .ok r
  timeStep_eq : r.timeStep = timeStep
  size_eq : r.size = s.header.siteCount.toNat
  aligned : Aligned form s.table r head rows
  outcome_eq : outcome (dump form s timeStep) =
    ⟨0, unlines ((head :: rows).map form.delimiter.intercalate), ""⟩
  lines_eq : OneLine form.delimiter → (∀ d ∈ s.table.declared, OneLine d.name) →
    Report.lines (outcome (dump form s timeStep)).output =
      (head :: rows).map form.delimiter.intercalate

/-- The table of every time step that an open file lists is printed. -/
theorem dump_aligned {limits : Limits} {path : String} {content? : Option Bytes}
    {s : Series} (hload : Series.load limits path content? = .ok s) {timeStep : UInt64}
    (hlisted : timeStep ∈ s.times) (form : OutputForm) :
    ∃ r head rows, Prints form s timeStep r head rows := by
  obtain ⟨r, hrecord, htimeStep, hsize⟩ := Series.exists_lookupByTimeStep hload hlisted
  have hmatches := Series.matches_of_lookupByTimeStep hrecord
  have hword : r.size < UInt64.size := hsize ▸ s.header.siteCount.toNat_lt
  have houtcome : outcome (dump form s timeStep) = _ := outcome_dump hrecord
  refine ⟨r, _, _, hrecord, htimeStep, hsize, Report.aligned_table form hmatches hword, houtcome,
    ?_⟩
  intro hdelimiter hnames
  have hcolumns : ∀ c ∈ r.columns, OneLine c.name := by
    intro c hc
    obtain ⟨d, hd, hname, -⟩ := hmatches.exists_declared hc
    exact hname ▸ hnames d hd
  rw [houtcome]
  exact Report.lines_unlines (Report.oneLine_table hdelimiter hcolumns)

theorem dump_aligned_sample :
    ∃ s head rows, Series.load {} "flow.xtr" (some (Recording.sample .four).encode) = .ok s ∧
      Aligned { delimiter := "; ", precision := 2 } s.table (Recording.sampleRecord 9 1005) head
        rows ∧
      rows.length = 2 ∧ (∀ cells ∈ rows, cells.length = 9) ∧ head[8]? = some "velocity[1]" ∧
      ∃ cells, rows[1]? = some cells ∧ cells[8]? = some "1008.00" := by
  have hwell := Recording.wellFormed_sample .four
  have hload := hwell.load_eq "flow.xtr"
  have hlisted : (9 : UInt64) ∈ (hwell.series "flow.xtr").times := by
    rw [hwell.times_series]
    decide
  obtain ⟨r, head, rows, hprints⟩ :=
    dump_aligned hload hlisted { delimiter := "; ", precision := 2 }
  have hsample := (Recording.lookup_sampleRecord "flow.xtr" (i := 1) rfl).2
  obtain rfl := Except.ok.inj (hsample.symm.trans hprints.lookup_eq)
  have haligned := hprints.aligned
  obtain ⟨cells, v, x, hcells, hv, hx, hcell⟩ :=
    haligned.elements 0 _ rfl 1 (by decide) 1 ⟨Recording.sampleRecord 9 1005, ⟨1, by decide⟩⟩ rfl
  cases hv
  cases hx
  refine ⟨_, head, rows, hload, haligned, haligned.length_rows,
    fun cells hcells => haligned.width_eq cells (.tail _ hcells),
    haligned.elementNames 0 _ rfl 1 (by decide), cells, hcells, hcell.trans ?_⟩
  decide +kernel

end Session

end LatticeSeries
