import LatticeSeries.Bytes

/-!
# UTF-8 text

Text is stored as UTF-8. A byte string that is not UTF-8 is refused with the
place of its first fault: the length of the valid text before it, and how many
bytes there start a character without completing one, unless the text ends
inside a character that is valid so far.
-/
namespace LatticeSeries.Utf8

/-- The first fault of a byte string. -/
inductive Fault where
  | invalid (length index : Nat)
  | incomplete (index : Nat)
deriving DecidableEq, Repr

def Fault.message : Fault → String
  | .invalid length index =>
    s!"invalid utf-8 sequence of {length} bytes from index {index}"
  | .incomplete index => s!"incomplete utf-8 byte sequence from index {index}"

/-- The ranges of the bytes that complete a character with this first byte;
none if no character starts with it. -/
def followers? (first : UInt8) : Option (List (UInt8 × UInt8)) :=
  let any : UInt8 × UInt8 := (0x80, 0xBF)
  if first < 0x80 then some []
  else if first < 0xC2 then none
  else if first < 0xE0 then some [any]
  else if first = 0xE0 then some [(0xA0, 0xBF), any]
  else if first = 0xED then some [(0x80, 0x9F), any]
  else if first < 0xF0 then some [any, any]
  else if first = 0xF0 then some [(0x90, 0xBF), any, any]
  else if first < 0xF4 then some [any, any, any]
  else if first = 0xF4 then some [(0x80, 0x8F), any, any]
  else none

/-- How many leading bytes lie in the ranges, taken in turn. -/
def matching : List (UInt8 × UInt8) → Bytes → Nat
  | (low, high) :: ranges, b :: bytes =>
    if low ≤ b ∧ b ≤ high then matching ranges bytes + 1 else 0
  | _, _ => 0

/-- The first fault of a byte string whose first byte has the given index. -/
def fault? (index : Nat) : Bytes → Option Fault
  | [] => none
  | first :: bytes =>
    match followers? first with
    | none => some (.invalid 1 index)
    | some ranges =>
      let n := matching ranges bytes
      if n = ranges.length then fault? (index + n + 1) (bytes.drop n)
      else if n = bytes.length then some (.incomplete index)
      else some (.invalid (n + 1) index)
termination_by bytes => bytes.length
decreasing_by simp only [List.length_drop, List.length_cons]; omega

def encode (text : String) : Bytes := text.toByteArray.data.toList

def decode (bytes : Bytes) : Except Fault String :=
  match String.fromUTF8? ⟨bytes.toArray⟩ with
  | some text => .ok text
  | none => .error ((fault? 0 bytes).getD (.incomplete bytes.length))

@[simp] theorem decode_encode (text : String) : decode (encode text) = .ok text := by
  have h : (⟨(encode text).toArray⟩ : ByteArray) = text.toByteArray := by simp [encode]
  rw [decode, h, String.fromUTF8?, dif_pos text.isValidUTF8]
  rfl

theorem eq_encode_of_decode {bytes : Bytes} {text : String} (h : decode bytes = .ok text) :
    bytes = encode text := by
  unfold decode String.fromUTF8? at h
  split at h
  · rename_i found hfound
    split at hfound
    · cases h
      cases hfound
      simp [encode, String.fromUTF8]
    · cases hfound
  · cases h

theorem decode_eq_ok_iff {bytes : Bytes} {text : String} :
    decode bytes = .ok text ↔ bytes = encode text :=
  ⟨eq_encode_of_decode, fun h => h ▸ decode_encode text⟩

end LatticeSeries.Utf8
