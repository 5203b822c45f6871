import LatticeSeries.Toml.Value

/-!
# Scanning TOML text

Scanners for the pieces that contain no other value: blanks and line ends,
strings in their four notations, numbers, and dates. A scanner takes characters
off the front of a text or refuses it; an alternative starts again where the
refused one began.
-/
namespace LatticeSeries.Toml

abbrev Scanner := StateT (List Char) Option

namespace Scanner

def satisfying (p : Char → Bool) : Scanner Char := fun
  | c :: text => if p c then some (c, text) else none
  | [] => none

def char (c : Char) : Scanner Unit := discard (satisfying (· == c))

/-- These characters in turn. -/
def literal : List Char → Scanner Unit
  | [] => pure ()
  | c :: cs => do
    char c
    literal cs

/-- The longest run of characters that satisfy the test. -/
def run (p : Char → Bool) : Scanner (List Char) := fun text =>
  some (text.takeWhile p, text.dropWhile p)

/-- Exactly `n` characters that satisfy the test. -/
def exactly (n : Nat) (p : Char → Bool) : Scanner (List Char) := fun text =>
  let taken := (text.take n).takeWhile p
  if taken.length = n then some (taken, text.drop n) else none

/-- Succeeds where `s` would, and takes nothing. -/
def ahead {α : Type} (s : Scanner α) : Scanner Unit := fun text =>
  (s text).map fun _ => ((), text)

def atEnd : Scanner Unit := fun
  | [] => some ((), [])
  | _ :: _ => none

/-- As many times as possible, up to a bound. -/
def repeatedUpTo {α : Type} (s : Scanner α) : Nat → Scanner (List α)
  | 0 => pure []
  | bound + 1 =>
    (do
      let a ← s
      let as ← repeatedUpTo s bound
      pure (a :: as)) <|> pure []

/-- As many times as possible. No scanner that takes something can succeed more
often than the text has characters. -/
def repeated {α : Type} (s : Scanner α) : Scanner (List α) := fun text =>
  repeatedUpTo s text.length text

/-- One or more, with a separator between them. -/
def separated {α : Type} (s : Scanner α) (separator : Char) : Scanner (List α) := do
  let first ← s
  let rest ← repeated (do
    char separator
    s)
  pure (first :: rest)

/-! ## Blanks and line ends -/

def blank : Scanner Unit := discard (run fun c => c == ' ' || c == '\t')

def newline : Scanner Unit := literal ['\n'] <|> literal ['\r', '\n']

/-- A character that may stand in a comment or a string: no control character but the tab. -/
def isPlain (c : Char) : Bool := c == '\t' || (' ' ≤ c && c != '\x7f')

def comment : Scanner Unit := do
  char '#'
  discard (run isPlain)

/-- What may follow a statement in its line. -/
def endOfLine : Scanner Unit := do
  blank
  discard (optional comment)
  newline <|> atEnd

/-- Blanks, line ends and comments between the elements of an array. -/
def spacing : Scanner Unit := do
  blank
  discard (repeated do
    discard (optional comment)
    newline
    blank)

/-! ## Strings -/

def isHexDigit (c : Char) : Bool :=
  c.isDigit || ('a' ≤ c && c ≤ 'f') || ('A' ≤ c && c ≤ 'F')

def digitValue (c : Char) : Nat :=
  if c.isDigit then c.toNat - '0'.toNat
  else if 'a' ≤ c then c.toNat - 'a'.toNat + 10
  else c.toNat - 'A'.toNat + 10

/-- The number that digits spell in a base. -/
def valueOf (base : Nat) (digits : List Char) : Nat :=
  digits.foldl (fun n c => base * n + digitValue c) 0

/-- The character with a code of `n` hexadecimal digits. -/
def codePoint (n : Nat) : Scanner Char := do
  let code := valueOf 16 (← exactly n isHexDigit)
  if code.isValidChar then pure (Char.ofNat code) else failure

def escaped : Scanner Char := do
  char '\\'
  match ← satisfying fun _ => true with
  | 'b' => pure '\x08'
  | 't' => pure '\t'
  | 'n' => pure '\n'
  | 'f' => pure '\x0c'
  | 'r' => pure '\r'
  | '"' => pure '"'
  | '\\' => pure '\\'
  | 'u' => codePoint 4
  | 'U' => codePoint 8
  | _ => failure

def basicChar : Scanner Char := satisfying fun c => isPlain c && c != '"' && c != '\\'

def literalChar : Scanner Char := satisfying fun c => isPlain c && c != '\''

/-- A backslash at the end of a line, with all blanks and line ends that follow. -/
def joinedLine : Scanner Unit := do
  char '\\'
  blank
  newline
  discard (repeated (discard (satisfying fun c => c == ' ' || c == '\t') <|> newline))

/-- A string between single quotation marks of a kind. -/
def singleLine (quote : Char) (item : Scanner Char) : Scanner (List Char) := do
  char quote
  let text ← repeated item
  char quote
  pure text

/-- A number of equal quotation marks. -/
def marks (quote : Char) (n : Nat) : Scanner (List Char) := do
  literal (List.replicate n quote)
  pure (List.replicate n quote)

/-- Quotation marks that stand before something else. -/
def marksBefore (quote : Char) (n : Nat) (follow : Scanner Unit) : Scanner (List Char) := do
  let text ← marks quote n
  ahead follow
  pure text

/-- A string between triple quotation marks. One or two marks may stand inside
it and before its end; a line end right after the opening marks is dropped. -/
def multiLine (quote : Char) (item : Scanner (List Char)) : Scanner (List Char) := do
  let closing := marks quote 3
  let other := discard (satisfying (· != quote))
  discard closing
  discard (optional newline)
  let pieces ← repeated (item <|> marksBefore quote 2 other <|> marksBefore quote 1 other)
  let last ← marksBefore quote 2 (discard closing) <|> marksBefore quote 1 (discard closing) <|>
    pure []
  discard closing
  pure (pieces.flatten ++ last)

def lineBreak : Scanner (List Char) := do
  newline
  pure ['\n']

def single (item : Scanner Char) : Scanner (List Char) := do
  pure [← item]

/-- A string without line ends, as it may also be a key. -/
def quoted : Scanner String := do
  pure (String.ofList (← singleLine '"' (basicChar <|> escaped) <|> singleLine '\'' literalChar))

def multiLineQuoted : Scanner String := do
  let basic := multiLine '"'
    (single basicChar <|> (do joinedLine; pure []) <|> single escaped <|> lineBreak)
  let raw := multiLine '\'' (single literalChar <|> lineBreak)
  pure (String.ofList (← basic <|> raw))

/-! ## Numbers -/

/-- Digits with single underscores between them, which are dropped. -/
def digits (p : Char → Bool) : Scanner (List Char) := do
  let first ← satisfying p
  let rest ← repeated (satisfying p <|> (do char '_'; satisfying p))
  pure (first :: rest)

def sign : Scanner Bool :=
  (do char '-'; pure true) <|> (do char '+'; pure false) <|> pure false

/-- A decimal integer without a leading zero, as its sign and digits. -/
def signedDigits : Scanner (Bool × List Char) := do
  let negative ← sign
  let zero := do
    char '0'
    pure ['0']
  pure (negative, ← zero <|> digits Char.isDigit)

/-- Integers have 64 bits. -/
def inRange (n : Int) : Scanner Int :=
  if -0x8000000000000000 ≤ n ∧ n < 0x8000000000000000 then pure n else failure

def integer : Scanner Int := do
  let inBase := fun (letter : Char) (base : Nat) (p : Char → Bool) => do
    literal ['0', letter]
    pure ((valueOf base (← digits p) : Nat) : Int)
  let decimal := do
    let (negative, ds) ← signedDigits
    let n : Int := valueOf 10 ds
    pure (if negative then -n else n)
  inRange (← inBase 'x' 16 isHexDigit <|> inBase 'o' 8 (fun c => '0' ≤ c && c ≤ '7') <|>
    inBase 'b' 2 (fun c => c == '0' || c == '1') <|> decimal)

/-- A power of ten behind `e`. -/
def exponent : Scanner Int := do
  char 'e' <|> char 'E'
  let negative ← sign
  let n : Int := valueOf 10 (← digits Char.isDigit)
  pure (if negative then -n else n)

/-- A number with a fraction or an exponent; one too large for 64 bits is refused. -/
def decimalFloat : Scanner Double := do
  let (negative, whole) ← signedDigits
  let fraction := do
    char '.'
    digits Char.isDigit
  let (part, power) ←
    (do let power ← exponent; pure ([], power)) <|>
    (do
      let part ← fraction
      let power ← exponent <|> pure 0
      pure (part, power))
  let x : Double := .ofDecimal negative (valueOf 10 (whole ++ part)) (power - part.length)
  if x.datum = .infinite false then failure else pure x

def specialFloat : Scanner Double := do
  let negative ← sign
  (do
    literal ['i', 'n', 'f']
    pure (.ofDatum (.infinite negative))) <|>
  (do
    literal ['n', 'a', 'n']
    pure (.ofDatum .nan))

def float : Scanner Double := decimalFloat <|> specialFloat

/-! ## Dates -/

/-- A number of exactly `n` digits within bounds. -/
def numberOf (n low high : Nat) : Scanner Nat := do
  let value := valueOf 10 (← exactly n Char.isDigit)
  if low ≤ value ∧ value ≤ high then pure value else failure

def daysIn (year month : Nat) : Nat :=
  if month = 2 then
    if year % 4 = 0 ∧ (year % 100 ≠ 0 ∨ year % 400 = 0) then 29 else 28
  else if month = 4 ∨ month = 6 ∨ month = 9 ∨ month = 11 then 30
  else 31

def date : Scanner Date := do
  let year ← numberOf 4 0 9999
  char '-'
  let month ← numberOf 2 1 12
  char '-'
  let day ← numberOf 2 1 (daysIn year month)
  pure { year, month, day }

/-- Nine digits of a fraction of a second; further ones are dropped. -/
def nanoseconds (fraction : List Char) : Nat :=
  valueOf 10 ((fraction ++ List.replicate 9 '0').take 9)

def time : Scanner Time := do
  let hour ← numberOf 2 0 23
  char ':'
  let minute ← numberOf 2 0 59
  char ':'
  let second ← numberOf 2 0 60
  let fraction ←
    (do
      char '.'
      let first ← satisfying Char.isDigit
      let rest ← run Char.isDigit
      pure (first :: rest)) <|> pure []
  pure { hour, minute, second, nanosecond := nanoseconds fraction }

def offset : Scanner Int :=
  (do
    char 'Z' <|> char 'z'
    pure 0) <|>
  (do
    let negative ← (do char '-'; pure true) <|> (do char '+'; pure false)
    let hour ← numberOf 2 0 23
    char ':'
    let minute ← numberOf 2 0 59
    let minutes : Int := 60 * hour + minute
    pure (if negative then -minutes else minutes))

def dateTime : Scanner DateTime :=
  (do
    let date ← date
    let clock := do
      char 'T' <|> char 't' <|> char ' '
      pure (some (← time), ← optional offset)
    let (time?, offset?) ← clock <|> pure (none, none)
    pure { date? := some date, time?, offset? }) <|>
  (do
    pure { date? := none, time? := some (← time), offset? := none })

end Scanner

end LatticeSeries.Toml
