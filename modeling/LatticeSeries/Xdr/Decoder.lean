import LatticeSeries.Checked

/-!
# Decoders

A decoder is called for one item after the other and goes on after a call that
failed. What each call returns, and where it leaves the cursor, is the transcript
of the calls.

A reader moves a cursor as a whole. On a machine the position and the bytes that
are left are two things: each is moved on its own, with checked operations, before
or after what may fail in between. The transcript is written down for both.
-/
namespace LatticeSeries.Xdr

inductive Item where
  | u32 (value : UInt32)
  | double (value : Double)
  | text (value : String)
deriving DecidableEq

/-- What a decoder is called for. The item is named in the errors. -/
inductive Call where
  | u32 (item : String)
  | double (item : String)
  | text (item : String)
deriving DecidableEq, Repr

/-- A call with the cursors before and after it. -/
structure Turn where
  call : Call
  before : Cursor
  outcome : Except Error Item
  after : Cursor

/-- What a reader returns, and the cursor that it leaves in any case. -/
def settle {α : Type} : EStateM.Result Error Cursor α → Except Error α × Cursor
  | .ok value c => (.ok value, c)
  | .error e c => (.error e, c)

def Call.read : Call → Reader Item
  | u32 item => .u32 <$> readU32 item
  | double item => .double <$> readDouble item
  | text item => .text <$> readText item

def Call.turn (call : Call) (c : Cursor) : Turn :=
  let (outcome, after) := settle (call.read c)
  ⟨call, c, outcome, after⟩

/-- Every call is made, also behind one that fails. -/
def transcript (c : Cursor) : List Call → List Turn
  | [] => []
  | call :: calls =>
    let turn := call.turn c
    turn :: transcript turn.after calls

/-- A decoder on a machine. Errors are reported and leave the cursor as it is then; faults
end the program. -/
abbrev Decoder := ExceptT Error (StateT Cursor Checked)

namespace Decoder

def need (item : String) (n : Nat) : Decoder Unit := do
  let c ← get
  if c.remaining < n then throw (.corruptHeader (.outOfBytes item c.position n c.remaining))

/-- Counts `n` bytes as consumed. -/
def count (n : Nat) : Decoder Unit := do
  let c ← get
  let position ← Checked.add c.position n
  set { c with position }

/-- Takes the first `n` bytes off those that are left. -/
def take (n : Nat) : Decoder Bytes := do
  let c ← get
  let (front, rest) ← Checked.split n c.rest
  set { c with rest }
  return front

/-- A number of `n` bytes. They are counted before they are taken. -/
def fixed {α : Type} (item : String) (n : Nat) (decode : Bytes → α) : Decoder α := do
  need item n
  count n
  return decode (← take n)

def unpackU32 (item : String) : Decoder UInt32 := fixed item 4 u32OfBytes

def unpackDouble (item : String) : Decoder Double := fixed item 8 Ieee.Number.ofBytes

/-- A text of `length` bytes and its padding. It is judged before anything is taken. -/
def padded (item : String) (length : Nat) : Decoder String := do
  let width ← Checked.add length (padding length)
  need item width
  let c ← get
  let bytes ← Checked.slice c.rest 0 width
  let (text, zeros) ← Checked.split length bytes
  if zeros.any (· ≠ 0) then throw (.corruptHeader (.nonZeroPadding item c.position))
  else
    match Utf8.decode text with
    | .error fault => throw (.corruptHeader (.notUtf8 item c.position fault))
    | .ok value =>
      discard (take width)
      count width
      return value

def unpackText (item : String) : Decoder String := do
  let length ← unpackU32 item
  padded item length.toNat

end Decoder

def Call.unpack : Call → Decoder Item
  | u32 item => .u32 <$> Decoder.unpackU32 item
  | double item => .double <$> Decoder.unpackDouble item
  | text item => .text <$> Decoder.unpackText item

def Decoder.transcript (c : Cursor) : List Call → Checked (List Turn)
  | [] => .ok []
  | call :: calls => do
    let (outcome, after) ← call.unpack c
    let turns ← transcript after calls
    return ⟨call, c, outcome, after⟩ :: turns

end LatticeSeries.Xdr
