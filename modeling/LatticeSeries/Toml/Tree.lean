import LatticeSeries.Toml.Value

/-!
# Assembling a document

The statements of a document define tables piece by piece: by a header, in
passing by a longer header, or by a dotted key. How a table came to be decides
what may still be added to it. A key is defined once; a header may complete a
table that was only passed through; a dotted key may extend what dotted keys
made, and may pass through tables that no header defined.
-/
namespace LatticeSeries.Toml

/-- How a table came to be. -/
inductive Origin where
  /-- By its own header. -/
  | header
  /-- In passing, by the header of a table inside it. -/
  | passing
  /-- By a dotted key. -/
  | dotted
deriving DecidableEq

/-- A part of a document under assembly. -/
inductive Node where
  | value (v : Value)
  | table (origin : Origin) (entries : List (String × Node))
  /-- An array of tables, to the last of which headers and keys refer. -/
  | tables (elements : List (List (String × Node)))

abbrev Entries := List (String × Node)

mutual

def Node.toValue : Node → Value
  | .value v => v
  | .table _ entries => .table (toValues entries)
  | .tables elements => .array (toTables elements)

/-- The meaning of the entries of a table. -/
def toValues : List (String × Node) → List (String × Value)
  | [] => []
  | (key, node) :: entries => (key, node.toValue) :: toValues entries

def toTables : List (List (String × Node)) → List Value
  | [] => []
  | entries :: elements => .table (toValues entries) :: toTables elements

end

/-- Changes what is under a key, or defines it behind the other keys. -/
def alter (change : Option Node → Option Node) (key : String) : Entries → Option Entries
  | [] => (change none).map fun node => [(key, node)]
  | (k, node) :: entries =>
    if k = key then (change (some node)).map fun node => (k, node) :: entries
    else (alter change key entries).map ((k, node) :: ·)

/-- Changes the table at a path. A table that the path lacks is made on the way,
and `viaKey` says whether a dotted key or a header leads there. -/
def descend (viaKey : Bool) (change : Origin → Entries → Option Entries) :
    List String → Origin → Entries → Option Entries
  | [], origin, entries => change origin entries
  | key :: path, _, entries =>
    alter (fun
      | none =>
        let origin := if viaKey then .dotted else .passing
        (descend viaKey change path origin []).map (.table origin)
      | some (.value _) => none
      | some (.table origin entries) =>
        if viaKey ∧ origin = .header then none
        else (descend viaKey change path origin entries).map (.table origin)
      | some (.tables elements) =>
        match elements.getLast? with
        | none => none
        | some entries =>
          (descend viaKey change path .header entries).map fun entries =>
            .tables (elements.dropLast ++ [entries])) key entries

/-- Gives a key below the dotted path a value. -/
def assign (path : List String) (key : String) (v : Value) : Origin → Entries → Option Entries :=
  descend true (fun origin entries =>
    if path ≠ [] ∧ origin ≠ .dotted then none
    else
      alter (fun
        | none => some (.value v)
        | some _ => none) key entries) path

/-- One statement of a document. -/
inductive Statement where
  | table (path : List String) (key : String)
  | element (path : List String) (key : String)
  | assignment (path : List String) (key : String) (v : Value)

/-- The tables defined so far and the path of the last header. -/
structure Assembly where
  root : Entries
  current : List String

namespace Assembly

def empty : Assembly := ⟨[], []⟩

def add (a : Assembly) : Statement → Option Assembly
  | .table path key =>
    (descend false (fun _ entries =>
      alter (fun
        | none => some (.table .header [])
        | some (.table .passing entries) => some (.table .header entries)
        | some _ => none) key entries) path .header a.root).map (⟨·, path ++ [key]⟩)
  | .element path key =>
    (descend false (fun _ entries =>
      alter (fun
        | none => some (.tables [[]])
        | some (.tables elements) => some (.tables (elements ++ [[]]))
        | some _ => none) key entries) path .header a.root).map (⟨·, path ++ [key]⟩)
  | .assignment path key v =>
    (descend false (assign path key v) a.current .header a.root).map (⟨·, a.current⟩)

end Assembly

/-- The document that the statements define, if they may stand together. -/
def Document.ofStatements? (statements : List Statement) : Option Document :=
  (statements.foldlM Assembly.add .empty).map fun a => toValues a.root

/-- The inline table of the given assignments. -/
def Value.ofAssignments? (assignments : List (List String × String × Value)) : Option Value :=
  (assignments.foldlM (fun entries (path, key, v) => assign path key v .header entries) []).map
    fun entries => .table (toValues entries)

end LatticeSeries.Toml
