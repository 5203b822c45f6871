import LatticeSeries.Report

/-!
# Lines of printed text

A printed text is cut into its lines again, provided that no line holds a line
feed. Numbers never bring one into a line, so a line of a table is whole as soon
as the delimiter and the names of the columns are free of line feeds.
-/
namespace LatticeSeries.Report

/-- The text fits in a line. -/
def OneLine (text : String) : Prop := '\n' ∉ text.toList

instance (text : String) : Decidable (OneLine text) :=
  inferInstanceAs (Decidable ('\n' ∉ text.toList))

/-- The lines of a text, of which each has its line end. -/
def lines (text : String) : List String :=
  ((text.toList.splitOn '\n').dropLast).map String.ofList

@[simp] theorem unlines_nil : unlines [] = "" := String.join_nil

@[simp] theorem unlines_cons (line : String) (lines : List String) :
    unlines (line :: lines) = (line ++ "\n") ++ unlines lines := by
  rw [unlines, List.map_cons, String.join_cons]
  rfl

theorem unlines_singleton (line : String) : unlines [line] = line ++ "\n" := by
  rw [unlines_cons, unlines_nil, String.append_empty]

theorem unlines_ne_empty {lines : List String} (h : lines ≠ []) : unlines lines ≠ "" := by
  cases lines with
  | nil => exact absurd rfl h
  | cons line lines =>
    intro hempty
    have hlength := congrArg String.length hempty
    rw [unlines_cons, String.length_append, String.length_append] at hlength
    simp at hlength

/-- Line ends stand between the lines and before an empty rest. -/
theorem toList_unlines (ls : List String) :
    (unlines ls).toList = ['\n'].intercalate (ls.map String.toList ++ [[]]) := by
  induction ls with
  | nil => rfl
  | cons l ls ih =>
    rw [unlines_cons, String.toList_append, String.toList_append, ih, List.map_cons,
      List.cons_append, List.intercalate_cons_of_ne_nil (by simp)]
    rfl

theorem lines_unlines {ls : List String} (h : ∀ l ∈ ls, OneLine l) : lines (unlines ls) = ls := by
  have hpieces : ∀ piece ∈ ls.map String.toList ++ [[]], '\n' ∉ piece := by
    intro piece hpiece
    rcases List.mem_append.mp hpiece with hpiece | hpiece
    · obtain ⟨l, hl, rfl⟩ := List.mem_map.mp hpiece
      exact h l hl
    · rw [List.mem_singleton.mp hpiece]
      exact List.not_mem_nil
  rw [lines, toList_unlines, List.splitOn_intercalate '\n' hpieces (by simp), List.dropLast_concat,
    List.map_map]
  simp [Function.comp_def]

theorem OneLine.append {a b : String} (ha : OneLine a) (hb : OneLine b) : OneLine (a ++ b) := by
  intro hmem
  rw [String.toList_append] at hmem
  rcases List.mem_append.mp hmem with hmem | hmem
  · exact ha hmem
  · exact hb hmem

theorem OneLine.intercalate {delimiter : String} (hdelimiter : OneLine delimiter)
    {cells : List String} (h : ∀ cell ∈ cells, OneLine cell) :
    OneLine (delimiter.intercalate cells) := by
  induction cells with
  | nil => exact List.not_mem_nil
  | cons cell cells ih =>
    have hcell := h cell List.mem_cons_self
    have hcells := ih fun c hc => h c (List.mem_cons_of_mem cell hc)
    by_cases hnil : cells = []
    · rw [hnil, String.intercalate_singleton]
      exact hcell
    · rw [String.intercalate_cons_of_ne_nil hnil]
      exact (hcell.append hdelimiter).append hcells

theorem newline_notMem_toDigits (n : Nat) : '\n' ∉ Nat.toDigits 10 n := by
  intro hmem
  have hdigit := Nat.isDigit_of_mem_toDigits (by decide) (by decide) hmem
  exact absurd hdigit (by decide)

theorem oneLine_repr (n : Nat) : OneLine n.repr := by
  rw [OneLine, Nat.repr, String.toList_ofList]
  exact newline_notMem_toDigits n

theorem oneLine_positional (n places : Nat) : OneLine (Ieee.positional n places) := by
  have hdigits : ∀ c ∈ List.replicate (places + 1 - (Nat.toDigits 10 n).length) '0' ++
      Nat.toDigits 10 n, c ≠ '\n' := by
    intro c hc heq
    rcases List.mem_append.mp hc with hc | hc
    · rw [List.eq_of_mem_replicate hc] at heq
      exact absurd heq (by decide)
    · exact newline_notMem_toDigits n (heq ▸ hc)
  rw [OneLine, Ieee.positional, String.toList_ofList]
  intro hmem
  split at hmem
  · exact hdigits _ (List.mem_of_mem_take hmem) rfl
  · rcases List.mem_append.mp hmem with hmem | hmem
    · exact hdigits _ (List.mem_of_mem_take hmem) rfl
    · rcases List.mem_cons.mp hmem with heq | hmem
      · exact absurd heq (by decide)
      · exact hdigits _ (List.mem_of_mem_drop hmem) rfl

theorem oneLine_signed (negative : Bool) {text : String} (h : OneLine text) :
    OneLine (Ieee.Number.signed negative text) := by
  cases negative with
  | false => exact h
  | true => exact OneLine.append (by decide) h

theorem oneLine_toFixed {format : Ieee.Format} (x : Ieee.Number format) (places : Nat) :
    OneLine (x.toFixed places) := by
  unfold Ieee.Number.toFixed
  cases x.datum with
  | nan => exact (by decide : OneLine "NaN")
  | infinite negative => exact oneLine_signed negative (by decide)
  | finite negative mantissa exponent => exact oneLine_signed negative (oneLine_positional _ _)

theorem oneLine_columnNames {c : Column} (h : OneLine c.name) :
    ∀ name ∈ columnNames c, OneLine name := by
  intro name hname
  unfold columnNames at hname
  split at hname
  · rw [List.mem_singleton.mp hname]
    exact h
  · obtain ⟨i, -, rfl⟩ := List.mem_map.mp hname
    exact ((h.append (by decide)).append (oneLine_repr i)).append (by decide)

theorem oneLine_tableHead {r : Record} (h : ∀ c ∈ r.columns, OneLine c.name) :
    ∀ cell ∈ tableHead r, OneLine cell := by
  have hplace : ∀ cell ∈ ["id", "x", "y", "z", "i", "j", "k"], OneLine cell := by decide
  intro cell hcell
  rcases List.mem_append.mp hcell with hcell | hcell
  · exact hplace cell hcell
  · obtain ⟨c, hc, hcell⟩ := List.mem_flatMap.mp hcell
    exact oneLine_columnNames (h c hc) cell hcell

theorem oneLine_tableRow (precision : Nat) (site : Site) :
    ∀ cell ∈ tableRow precision site, OneLine cell := by
  intro cell hcell
  rw [tableRow, List.mem_append, List.mem_append, List.mem_append] at hcell
  rcases hcell with ((hid | hposition) | hgrid) | hvalues
  · rw [List.mem_singleton.mp hid]
    exact oneLine_repr site.id.toNat
  · obtain ⟨x, -, rfl⟩ := List.mem_map.mp hposition
    exact oneLine_toFixed x precision
  · obtain ⟨n, -, rfl⟩ := List.mem_map.mp hgrid
    exact oneLine_repr n.toNat
  · obtain ⟨v, -, hcell⟩ := List.mem_flatMap.mp hvalues
    obtain ⟨x, -, rfl⟩ := List.mem_map.mp hcell
    exact oneLine_toFixed x precision

/-- Nothing but the delimiter and the names can break a line of a table. -/
theorem oneLine_table {form : OutputForm} {r : Record} (hdelimiter : OneLine form.delimiter)
    (hnames : ∀ c ∈ r.columns, OneLine c.name) : ∀ line ∈ table form r, OneLine line := by
  intro line hline
  obtain ⟨cells, hcells, rfl⟩ := List.mem_map.mp hline
  rcases List.mem_cons.mp hcells with rfl | hcells
  · exact hdelimiter.intercalate (oneLine_tableHead hnames)
  · obtain ⟨site, -, rfl⟩ := List.mem_map.mp hcells
    exact hdelimiter.intercalate (oneLine_tableRow form.precision site)

theorem oneLine_times (s : Series) : ∀ line ∈ times s, OneLine line := by
  intro line hline
  obtain ⟨timeStep, -, rfl⟩ := List.mem_map.mp hline
  exact oneLine_repr timeStep.toNat

end LatticeSeries.Report
