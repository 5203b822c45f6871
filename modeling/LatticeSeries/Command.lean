import LatticeSeries.Numeral
import LatticeSeries.Report

/-!
# The command line

A command names a report and a file; the settings file may be given anywhere
among the arguments. Running a command is a function of the arguments and the
files: it ends with a report on the standard output, or with exit code one and
a message on the standard error output, never with both.
-/
namespace LatticeSeries

structure Outcome where
  exitCode : UInt32
  output : String
  errors : String
deriving DecidableEq, Repr

inductive CommandFault where
  | usage
  | unknownCommand (name : String)
  | settings (path : String) (fault : SettingsFault)
  | noFile (path : String)
  | opening (path : String) (fault : Error)
  | timeStep (text : String) (fault : NumeralFault)
  | lookup (fault : Error)
deriving DecidableEq, Repr

namespace CommandFault

def usageLines : List String :=
  [ "Xtract v0.1.0",
    "",
    "Usage: xtract <command> <file> [options]",
    "",
    "Commands:",
    "  info <file>                Show header, fields and timestep count",
    "  times <file>               List timestep values",
    "  dump <file> <timestep>     Print every site of one timestep",
    "",
    "Options:",
    "  --config <path>            TOML file with [limits] and [output]",
    "",
    "Set RUST_LOG=debug for decoding details." ]

def lines : CommandFault → List String
  | usage => usageLines
  | unknownCommand name => [s!"Unknown command: {name}", "Run 'xtract' for usage information."]
  | settings path fault => [s!"error: loading config {path}: {(Error.settings fault).message}"]
  | noFile path => [s!"error: file not found: {path}"]
  | opening path fault => [s!"error: opening {path}: {fault.message}"]
  | timeStep text fault => [s!"error: invalid timestep '{text}': {fault.message}"]
  | lookup fault => [s!"error: {fault.message}"]

end CommandFault

namespace Command

/-- The files that a command can see, by path. -/
abbrev Files := String → Option Bytes

/-- Takes the first settings option and its path out of the arguments. -/
def splitSettings : List String → Except CommandFault (Option String × List String)
  | [] => .ok (none, [])
  | arg :: args =>
    if arg = "--config" then
      match args with
      | [] => .error .usage
      | path :: args => .ok (some path, args)
    else (splitSettings args).map fun (path?, args) => (path?, arg :: args)

/-- The settings at a path, or the defaults without one. -/
def settingsAt (files : Files) (parse : Toml.Parse) :
    Option String → Except CommandFault Settings
  | none => .ok {}
  | some path => (Settings.ofFile (files path) parse).mapError (CommandFault.settings path)

def seriesAt (files : Files) (limits : Limits) (path : String) : Except CommandFault Series :=
  match files path with
  | none => .error (.noFile path)
  | some bytes => (Series.load limits path (some bytes)).mapError (CommandFault.opening path)

def report (form : OutputForm) (series : Series) (name : String) (args : List String) :
    Except CommandFault (List String) :=
  if name = "info" then .ok (Report.summary series)
  else if name = "times" then .ok (Report.times series)
  else if name = "dump" then
    match args with
    | [] => .error .usage
    | text :: _ => do
      let timeStep ← (Numeral.parse text).mapError (CommandFault.timeStep text)
      let record ← (series.lookupByTimeStep timeStep).mapError CommandFault.lookup
      return Report.table form record
  else .error (.unknownCommand name)

/-- The lines of the report that the arguments ask for. -/
def lines (files : Files) (args : List String) (parse : Toml.Parse) :
    Except CommandFault (List String) := do
  let (path?, args) ← splitSettings args
  let settings ← settingsAt files parse path?
  match args with
  | name :: path :: args =>
    report settings.output (← seriesAt files settings.limits path) name args
  | _ => throw .usage

def run (files : Files) (args : List String) (parse : Toml.Parse := Toml.Document.parse?) :
    Outcome :=
  match lines files args parse with
  | .ok lines => ⟨0, Report.unlines lines, ""⟩
  | .error fault => ⟨1, "", Report.unlines fault.lines⟩

end Command

end LatticeSeries
