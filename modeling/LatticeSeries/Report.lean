import LatticeSeries.Series
import LatticeSeries.Settings

/-!
# Reports on a file

Three reports, each a list of lines: a summary of the headers with a table of
the fields, the values of the time steps, and the table of one time step. The
last is rectangular: a row of column names, then one row of cells for each site.
-/
namespace LatticeSeries.Report

/-- Spaces before the text, up to a width in characters. -/
def padLeft (width : Nat) (text : String) : String :=
  String.ofList (List.replicate (width - text.length) ' ') ++ text

/-- Spaces after the text, up to a width in characters. -/
def padRight (width : Nat) (text : String) : String :=
  text ++ String.ofList (List.replicate (width - text.length) ' ')

/-- One line of the table of fields; only the type in memory may have any width. -/
def fieldLine (name disk memory length offset : String) : String :=
  " ".intercalate [padRight 16 name, padLeft 6 disk, memory, padLeft 6 length, padLeft 8 offset]

def describeField (f : Field) : String :=
  fieldLine f.name ((f.diskType?.map (·.text)).getD "-") f.memoryType.text (toString f.length)
    ((f.offset?.map toString).getD "-")

def summary (s : Series) : List String :=
  let h := s.header
  let origin := ", ".intercalate (h.origin.toList.map (·.toShortest))
  [ s!"File:        {s.path}",
    s!"Version:     {h.version.number}",
    s!"Voxel size:  {h.voxelSize.toShortest} m",
    s!"Origin:      ({origin}) m",
    s!"Sites:       {h.siteCount}",
    s!"Timesteps:   {s.timeCount}",
    s!"Record size: {s.recordLength} bytes",
    "",
    fieldLine "field" "disk" "memory" "length" "offset" ] ++
    s.table.fields.map describeField

def times (s : Series) : List String := s.times.map toString

/-- The names over the elements of a column. -/
def columnNames (c : Column) : List String :=
  if c.length = 1 then [c.name]
  else (List.range c.length).map fun i => s!"{c.name}[{i}]"

/-- The names over the cells of every site. -/
def tableHead (r : Record) : List String :=
  ["id", "x", "y", "z", "i", "j", "k"] ++ r.columns.flatMap columnNames

def tableRow (precision : Nat) (site : Site) : List String :=
  [toString site.id] ++
    site.place.position.toList.map (·.toFixed precision) ++
    site.place.grid.toList.map toString ++
    site.values.flatMap fun (_, v) => v.toDoubles.map (·.toFixed precision)

def table (form : OutputForm) (r : Record) : List String :=
  (tableHead r :: r.sites.map (tableRow form.precision)).map form.delimiter.intercalate

/-- Lines as one text, each with its line end. -/
def unlines (lines : List String) : String := String.join (lines.map (· ++ "\n"))

end LatticeSeries.Report
