import LatticeSeries.Toml.Scanner
import LatticeSeries.Toml.Tree

/-!
# Reading a document

A document is a sequence of statements, one to a line: headers of tables, headers
of elements of an array of tables, and assignments to dotted keys. Values nest
in arrays and inline tables up to a fixed depth, and keys have at most as many
parts.
-/
namespace LatticeSeries.Toml

/-- The number of levels to which arrays and inline tables may nest, and of the
parts that a dotted key may have. -/
def levels : Nat := 79

namespace Scanner

/-- A key without quotation marks. -/
def bareKey : Scanner String := do
  let isBare := fun c => c.isAlphanum || c == '-' || c == '_'
  let first ← satisfying isBare
  let rest ← run isBare
  pure (String.ofList (first :: rest))

/-- The parts of a dotted key: the path and the last part. -/
def key : Scanner (List String × String) := do
  let part := do
    blank
    let name ← quoted <|> bareKey
    blank
    pure name
  let parts ← separated part '.'
  match parts.getLast? with
  | some last => if parts.length ≤ levels then pure (parts.dropLast, last) else failure
  | none => failure

/-- A value that contains no other value. -/
def atom : Scanner Value :=
  (Value.text <$> (multiLineQuoted <|> quoted)) <|>
  (Value.dateTime <$> dateTime) <|>
  (Value.float <$> float) <|>
  (Value.integer <$> integer) <|>
  (do literal "true".toList; pure (.boolean true)) <|>
  (do literal "false".toList; pure (.boolean false))

/-- Elements between brackets; a comma may follow the last. -/
def array (element : Scanner Value) : Scanner Value := do
  let spaced := do
    spacing
    let v ← element
    spacing
    pure v
  char '['
  let elements ←
    (do
      let elements ← separated spaced ','
      discard (optional (char ','))
      pure elements) <|> pure []
  spacing
  char ']'
  pure (.array elements)

/-- Assignments between braces, in one line and without a comma after the last. -/
def inlineTable (element : Scanner Value) : Scanner Value := do
  let assignment := do
    let (path, name) ← key
    char '='
    blank
    let v ← element
    blank
    pure (path, name, v)
  char '\x7b'
  let assignments ← separated assignment ',' <|> pure []
  blank
  char '\x7d'
  match Value.ofAssignments? assignments with
  | some v => pure v
  | none => failure

/-- A value with at most this many levels of arrays and inline tables. -/
def value : (levels : Nat) → Scanner Value
  | 0 => atom
  | levels + 1 => atom <|> array (value levels) <|> inlineTable (value levels)

def header : Scanner Statement :=
  (do
    literal ['[', '[']
    let (path, name) ← key
    literal [']', ']']
    endOfLine
    pure (.element path name)) <|>
  (do
    char '['
    let (path, name) ← key
    char ']'
    endOfLine
    pure (.table path name))

def assignment : Scanner Statement := do
  let (path, name) ← key
  char '='
  blank
  let v ← value levels
  endOfLine
  pure (.assignment path name v)

/-- A line that says nothing. -/
def emptyLine : Scanner (Option Statement) := do
  newline <|> (do comment; newline <|> atEnd)
  pure none

def statements : Scanner (List Statement) := do
  blank
  let lines ← repeated do
    let statement ← emptyLine <|> (some <$> header) <|> (some <$> assignment)
    blank
    pure statement
  atEnd
  pure (lines.filterMap id)

end Scanner

/-- The document that a text denotes, if it is TOML. A byte order mark at its
front is skipped. -/
def Document.parse? (text : String) : Option Document := do
  let chars := match text.toList with
    | '\ufeff' :: rest => rest
    | chars => chars
  let (statements, _) ← Scanner.statements chars
  Document.ofStatements? statements

end LatticeSeries.Toml
