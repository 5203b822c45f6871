import LatticeSeries.Command

/-!
# Sessions

A session is the program at work. It takes its arguments apart, writes every line
as soon as the line is known, and may end at any point; what it has written by
then stays written. `Command.run` says in one piece what a whole session leaves
behind.
-/
namespace LatticeSeries

inductive Channel where
  | output
  | errors
deriving DecidableEq, Repr

/-- What has been written so far. -/
structure Streams where
  output : String := ""
  errors : String := ""
deriving DecidableEq, Repr

def Streams.append (s : Streams) (text : String) : Channel → Streams
  | .output => { s with output := s.output ++ text }
  | .errors => { s with errors := s.errors ++ text }

/-- A part of a session, which goes on with a result or ends with an exit code. -/
abbrev Session := EStateM UInt32 Streams

namespace Session

variable {α : Type}

def writeLine (channel : Channel) (line : String) : Session Unit :=
  modify fun s => s.append (line ++ "\n") channel

def refuse (fault : CommandFault) : Session α := do
  forM fault.lines (writeLine .errors)
  throw 1

/-- Goes on with a result; a fault is told and ends the session. -/
def ofExcept : Except CommandFault α → Session α
  | .ok a => pure a
  | .error fault => refuse fault

/-- Ends the session where it stands. -/
def abort : Session α := throw 101

/-- Removes the first settings option and its path from the arguments and reads
the file at the path. -/
def readSettings (files : Command.Files) (args : List String) (parse : Toml.Parse) :
    Session (Settings × List String) :=
  match args.findIdx? (· = "--config") with
  | none => return ({}, args)
  | some i =>
    match args[i + 1]? with
    | none => refuse .usage
    | some path => do
      let args := (args.eraseIdx (i + 1)).eraseIdx i
      let settings ←
        ofExcept ((Settings.ofFile (files path) parse).mapError (CommandFault.settings path))
      return (settings, args)

def openFile (files : Command.Files) (limits : Limits) (path : String) : Session Series :=
  match files path with
  | none => refuse (.noFile path)
  | some bytes =>
    ofExcept ((Series.load limits path (some bytes)).mapError (CommandFault.opening path))

/-- The line with one more cell. -/
def pushCell (delimiter line cell : String) : String := line ++ delimiter ++ cell

def pushNames (delimiter line : String) (c : Column) : String :=
  if c.length = 1 then pushCell delimiter line c.name
  else (List.range c.length).foldl (fun line i => pushCell delimiter line s!"{c.name}[{i}]") line

/-- The line of names, which begins with those of the identifier, the position and the
lattice coordinate. -/
def headLine (delimiter : String) (r : Record) : String :=
  let d := delimiter
  r.columns.foldl (pushNames d) s!"id{d}x{d}y{d}z{d}i{d}j{d}k"

def pushValues (form : OutputForm) (line : String) (v : Values) : String :=
  v.toDoubles.foldl (fun line x => pushCell form.delimiter line (x.toFixed form.precision)) line

/-- The line of a site up to its lattice coordinate. -/
def placeLine (form : OutputForm) (site : Site) : String :=
  let d := form.delimiter
  let ⟨x, y, z⟩ := site.place.position.map (·.toFixed form.precision)
  let ⟨i, j, k⟩ := site.place.grid
  s!"{site.id}{d}{x}{d}{y}{d}{z}{d}{i}{d}{j}{d}{k}"

/-- The elements of every field of a site. A column without them ends the session. -/
def siteValues (site : Site) : Session (List Values) :=
  site.record.columns.mapM fun c =>
    match c.slice? site.index with
    | some values => return values
    | none => abort

/-- The line of a site. A site without the elements of a column ends the session in the
middle of its line. -/
def siteLine (form : OutputForm) (site : Site) : Session String := do
  let values ← siteValues site
  return values.foldl (pushValues form) (placeLine form site)

/-- Writes the table of a time step, in which every line grows at its end, each time by a
delimiter and a cell. -/
def dump (form : OutputForm) (series : Series) (timeStep : UInt64) : Session Unit := do
  let record ← ofExcept ((series.lookupByTimeStep timeStep).mapError CommandFault.lookup)
  writeLine .output (headLine form.delimiter record)
  forM record.sites fun site => do
    let line ← siteLine form site
    writeLine .output line

def perform (form : OutputForm) (series : Series) (name : String) (args : List String) :
    Session Unit :=
  if name = "info" then forM (Report.summary series) (writeLine .output)
  else if name = "times" then
    forM series.times fun timeStep => writeLine .output (toString timeStep)
  else if name = "dump" then
    match args with
    | [] => refuse .usage
    | text :: _ => do
      let timeStep ← ofExcept ((Numeral.parse text).mapError (CommandFault.timeStep text))
      dump form series timeStep
  else refuse (.unknownCommand name)

def run (files : Command.Files) (args : List String) (parse : Toml.Parse) : Session Unit := do
  let (settings, args) ← readSettings files args parse
  match args with
  | name :: path :: args =>
    let series ← openFile files settings.limits path
    perform settings.output series name args
  | _ => refuse .usage

/-- What a session that starts with empty streams leaves behind. -/
def outcome (session : Session Unit) : Outcome :=
  match session {} with
  | .ok _ s => ⟨0, s.output, s.errors⟩
  | .error exitCode s => ⟨exitCode, s.output, s.errors⟩

end Session

end LatticeSeries
