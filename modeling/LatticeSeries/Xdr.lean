import LatticeSeries.Error
import LatticeSeries.Ieee.Number

/-!
# External data representation

The field header is a sequence of items: 32-bit words, 64-bit floating-point
numbers, and texts led by their length and padded with zeros to a multiple of
four bytes. A reader takes items off the front of a byte string and counts what
it has taken. A reader that fails leaves the cursor where it was, except that a
text whose length was read stays past that length.
-/
namespace LatticeSeries.Xdr

/-- The bytes not read yet and the number of bytes read before them. -/
structure Cursor where
  position : Nat
  rest : Bytes
deriving DecidableEq, Repr

namespace Cursor

def start (bytes : Bytes) : Cursor := ⟨0, bytes⟩

def remaining (c : Cursor) : Nat := c.rest.length

def advance (c : Cursor) (n : Nat) : Cursor := ⟨c.position + n, c.rest.drop n⟩

end Cursor

abbrev Reader := EStateM Error Cursor

/-- Runs `read` on the next `n` bytes and moves past them if it succeeds. The
item is named in the errors. -/
def window {α : Type} (item : String) (n : Nat)
    (read : Cursor → Bytes → Except HeaderFault α) : Reader α := fun c =>
  if c.remaining < n then .error (.corruptHeader (.outOfBytes item c.position n c.remaining)) c
  else
    match read c (c.rest.take n) with
    | .ok value => .ok value (c.advance n)
    | .error fault => .error (.corruptHeader fault) c

def readU32 (item : String) : Reader UInt32 :=
  window item 4 fun _ bytes => .ok (u32OfBytes bytes)

def readDouble (item : String) : Reader Double :=
  window item 8 fun _ bytes => .ok (Ieee.Number.ofBytes bytes)

/-- The number of zero bytes after a text of `length` bytes. -/
def padding (length : Nat) : Nat := (4 - length % 4) % 4

/-- The text in the first `length` bytes, with zeros after it. -/
def textOf (item : String) (position length : Nat) (bytes : Bytes) :
    Except HeaderFault String :=
  if (bytes.drop length).any (· ≠ 0) then .error (.nonZeroPadding item position)
  else
    match Utf8.decode (bytes.take length) with
    | .ok text => .ok text
    | .error fault => .error (.notUtf8 item position fault)

def readText (item : String) : Reader String := do
  let length := (← readU32 item).toNat
  window item (length + padding length) fun c bytes => textOf item c.position length bytes

/-- A text as it is stored: its length, its bytes, its padding. -/
def encodeText (text : String) : Bytes :=
  let bytes := Utf8.encode text
  bytesOfU32 (UInt32.ofNat bytes.length) ++ bytes ++ List.replicate (padding bytes.length) 0

/-- A text fills a whole number of four-byte units. -/
theorem add_padding_mod (length : Nat) : (length + padding length) % 4 = 0 := by
  unfold padding
  omega

theorem padding_lt (length : Nat) : padding length < 4 := by
  unfold padding
  omega

end LatticeSeries.Xdr
