import LatticeSeries.Settings
import Mathlib.Logic.Function.Basic

/-!
# Settings in one pass

A document can be read in one pass over its entries, in the order in which they stand
there. A visitor keeps a slot for each key that it knows. An entry fills the slot of
its key, a second entry for the same slot is refused, and an entry with another key is
passed over. An array fills the slots from the first on. A slot that stays empty is a
key that keeps its default. The document is visited in this way, and so is each of its
sections.
-/
namespace LatticeSeries

open Toml (Value Document)

/-- For each key what was found, if anything. -/
abbrev Slots {κ : Type} (Kind : κ → Type) := (key : κ) → Option (Kind key)

/-- The keys that a visitor knows, in the order of their slots, and how it reads what
stands under each of them. -/
structure Visitor (κ : Type) (Kind : κ → Type) where
  keys : List κ
  name : κ → String
  read : (key : κ) → Value → Except SettingsFault (Kind key)
  nodup : keys.Nodup
  mem_keys : ∀ key, key ∈ keys
  name_injective : Function.Injective name

namespace Visitor

variable {κ : Type} [DecidableEq κ] {Kind : κ → Type}

def visitEntries (visitor : Visitor κ Kind) :
    Slots Kind → List (String × Value) → Except SettingsFault (Slots Kind)
  | slots, [] => .ok slots
  | slots, (name, value) :: entries =>
    match visitor.keys.find? (visitor.name · = name) with
    | none => visitor.visitEntries slots entries
    | some key =>
      if (slots key).isSome then .error (.unsuitableValue name)
      else do
        let found ← visitor.read key value
        visitor.visitEntries (Function.update slots key (some found)) entries

/-- The slots of these keys, from elements in the same order. -/
def visitElements (visitor : Visitor κ Kind) :
    List κ → Slots Kind → List Value → Except SettingsFault (Slots Kind)
  | key :: keys, slots, value :: values => do
    let found ← visitor.read key value
    visitor.visitElements keys (Function.update slots key (some found)) values
  | _, slots, _ => .ok slots

/-- A section, which is a table or an array. A date-time has no key that is known. -/
def visit (visitor : Visitor κ Kind) (name : String) : Value → Except SettingsFault (Slots Kind)
  | .table entries => visitor.visitEntries (fun _ => none) entries
  | .array elements => visitor.visitElements visitor.keys (fun _ => none) elements
  | .dateTime _ => .ok fun _ => none
  | _ => .error (.unsuitableValue name)

end Visitor

namespace Settings

inductive OutputKey where
  | delimiter
  | precision
deriving DecidableEq, Repr

inductive SectionKey where
  | limits
  | output
deriving DecidableEq, Repr

def OutputKey.text : OutputKey → String
  | delimiter => "delimiter"
  | precision => "precision"

def SectionKey.text : SectionKey → String
  | limits => "limits"
  | output => "output"

/-- The integers that a limit may be are below this one. -/
def limitBound : LimitKey → Nat
  | .siteCount => UInt64.size / 2
  | _ => UInt32.size

def limitsVisitor : Visitor LimitKey fun _ => Nat where
  keys := Limits.keys
  name := LimitKey.text
  read key value := naturalBelow (limitBound key) key.text 0 (some value)
  nodup := by decide
  mem_keys key := by cases key <;> decide
  name_injective a b h := by cases a <;> cases b <;> first | rfl | exact absurd h (by decide)

abbrev OutputKind : OutputKey → Type
  | .delimiter => String
  | .precision => Nat

def outputVisitor : Visitor OutputKey OutputKind where
  keys := [.delimiter, .precision]
  name := OutputKey.text
  read
    | .delimiter, value => Settings.text "delimiter" "" (some value)
    | .precision, value => naturalBelow (UInt64.size / 2) "precision" 0 (some value)
  nodup := by decide
  mem_keys key := by cases key <;> decide
  name_injective a b h := by cases a <;> cases b <;> first | rfl | exact absurd h (by decide)

/-- The limits that were found, the others by default. -/
def limitsOfSlots (slots : Slots fun _ : LimitKey => Nat) : Limits :=
  let limit := fun key => (slots key).getD (({} : Limits).get key)
  { siteCount := .ofNat (limit .siteCount)
    fieldCount := .ofNat (limit .fieldCount)
    fieldHeaderLength := .ofNat (limit .fieldHeaderLength)
    fieldLength := .ofNat (limit .fieldLength) }

def outputOfSlots (slots : Slots OutputKind) : OutputForm :=
  let defaults : OutputForm := {}
  { delimiter := (slots .delimiter).getD defaults.delimiter
    precision := (slots .precision).getD defaults.precision }

abbrev SectionKind : SectionKey → Type
  | .limits => Limits
  | .output => OutputForm

def documentVisitor : Visitor SectionKey SectionKind where
  keys := [.limits, .output]
  name := SectionKey.text
  read
    | .limits, value => (limitsVisitor.visit "limits" value).map limitsOfSlots
    | .output, value => (outputVisitor.visit "output" value).map outputOfSlots
  nodup := by decide
  mem_keys key := by cases key <;> decide
  name_injective a b h := by cases a <;> cases b <;> first | rfl | exact absurd h (by decide)

/-- The settings in a document, in one pass. -/
def visitDocument (document : Document) : Except SettingsFault Settings := do
  let slots ← documentVisitor.visitEntries (fun _ => none) document
  return { limits := (slots .limits).getD {}, output := (slots .output).getD {} }

/-- The settings in a document, if they are valid. -/
def loadByVisit (document : Document) : Except SettingsFault Settings := do
  let settings ← visitDocument document
  settings.validate
  return settings

end Settings

end LatticeSeries
