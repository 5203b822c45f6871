import LatticeSeries.Limits
import LatticeSeries.Toml.Document

/-!
# Settings

A settings file is a TOML document with two sections, the limits on header
values and the form of printed tables. A section is read key by key: a key that
is absent keeps its default and an unknown key means nothing. A section may also
be an array, which gives its values by their position.
-/
namespace LatticeSeries

open Toml (Value Document)

structure OutputForm where
  /-- The text between two cells. -/
  delimiter : String := ","
  /-- Digits after the decimal point. -/
  precision : Nat := 6
deriving DecidableEq, Repr

structure Settings where
  limits : Limits := {}
  output : OutputForm := {}
deriving DecidableEq, Repr

namespace Settings

/-- The values that a section gives, by position and by key. A date-time gives none. -/
def sectionValues (name : String) :
    Option Value → Except SettingsFault (Nat → String → Option Value)
  | none | some (.dateTime _) => .ok fun _ _ => none
  | some (.table entries) => .ok fun _ key => entries.lookup key
  | some (.array elements) => .ok fun position _ => elements[position]?
  | some _ => .error (.unsuitableValue name)

/-- An integer that is at least zero and below the bound. -/
def naturalBelow (bound : Nat) (key : String) (default : Nat) :
    Option Value → Except SettingsFault Nat
  | none => .ok default
  | some (.integer n) =>
    if 0 ≤ n ∧ n < bound then .ok n.toNat else .error (.unsuitableValue key)
  | some _ => .error (.unsuitableValue key)

def text (key : String) (default : String) : Option Value → Except SettingsFault String
  | none => .ok default
  | some (.text s) => .ok s
  | some _ => .error (.unsuitableValue key)

/-- The limits in their section; counts of sites are signed 64-bit integers, the others unsigned
32-bit ones. -/
def limitsOf (value : Nat → String → Option Value) : Except SettingsFault Limits := do
  let defaults : Limits := {}
  let read := fun position (key : LimitKey) bound =>
    naturalBelow bound key.text (defaults.get key) (value position key.text)
  let siteCount ← read 0 .siteCount (UInt64.size / 2)
  let fieldCount ← read 1 .fieldCount UInt32.size
  let fieldHeaderLength ← read 2 .fieldHeaderLength UInt32.size
  let fieldLength ← read 3 .fieldLength UInt32.size
  return {
    siteCount := .ofNat siteCount
    fieldCount := .ofNat fieldCount
    fieldHeaderLength := .ofNat fieldHeaderLength
    fieldLength := .ofNat fieldLength }

def outputOf (value : Nat → String → Option Value) : Except SettingsFault OutputForm := do
  let defaults : OutputForm := {}
  let delimiter ← text "delimiter" defaults.delimiter (value 0 "delimiter")
  let precision ←
    naturalBelow (UInt64.size / 2) "precision" defaults.precision (value 1 "precision")
  return { delimiter, precision }

def ofDocument (document : Document) : Except SettingsFault Settings := do
  let limits ← limitsOf (← sectionValues "limits" (document.lookup "limits"))
  let output ← outputOf (← sectionValues "output" (document.lookup "output"))
  return { limits, output }

/-- Refuses a limit of zero and, after that, an empty delimiter. -/
def validate (s : Settings) : Except SettingsFault Unit := do
  s.limits.validate
  if s.output.delimiter.isEmpty then throw .emptyDelimiter

/-- The settings in a document, if they are valid. -/
def load (document : Document) : Except SettingsFault Settings := do
  let settings ← ofDocument document
  settings.validate
  return settings

/-- The settings in the file with this content, if there is a file. What is said about
settings files holds for every way to read a document. -/
def ofFile (content? : Option Bytes) (parse : Toml.Parse := Document.parse?) :
    Except SettingsFault Settings :=
  match content? with
  | none => .error .missingFile
  | some bytes =>
    match Utf8.decode bytes with
    | .error _ => .error .notText
    | .ok text =>
      match parse text with
      | none => .error .notADocument
      | some document => load document

end Settings

end LatticeSeries
